/-
The pool serves as one fresh process would.

Seen from outside, the preforked workers are one desk: a request waits,
a worker has it, and then it is answered or lost with that worker
(`Matches`). Every move of the pool at work is an event at the desk, or
none (`turn_matched`), so every run is a run of the desk, whatever the
workers, the parent and the signals do in between (`pool_serves_as_one`).

What the desk calls a right answer is the answer of a process that has
served nothing before and finds the same bytes in its unwritten memory;
those play no part where the request is well escaped and fits the buffer
(`AsFresh`). That a worker gives that answer is the isolation of one
request from another: between two requests a worker is clean
(`Serving.Clean`).

A variable holds the text that was stored in it, also where an http or
shell state stored it: that the table points into a destroyed string
there, and what a later state then reads, is left aside.
-/
import Appserver.Lib.Desk
import Appserver.Proofs.Isolation
import Appserver.Proofs.Workers
import Mathlib.Data.List.Perm.Basic

namespace Appserver

open Bytes Trans Desk

-- ================================================================ answers

/-- What goes back for a request. -/
structure Reply where
  job : Job
  served : Served

/-- The reply is to this request, and is that of a process that has
served nothing before; where the request is well formed and fits the
buffer, it does not depend on unwritten memory. -/
def AsFresh (scripts : Scripts) (rq : Request) (r : Reply) : Prop :=
  r.job.rq = rq
    ∧ ∀ ind, ind = r.job.ind ∨ rq.WellEscaped ∧ rq.Fits →
      (Worker.fresh.serve scripts { r.job with ind := ind }).map Prod.fst
        = .ok r.served

section Fresh

variable {scripts : Scripts} (hscripts : ∀ sm ∈ scripts.maps, Accepted sm)
include hscripts

/-- A clean worker serves like a fresh one. -/
theorem Worker.Clean.serve_eq {w : Worker} (hw : w.Clean) {j : Job}
    {ind : Indeterminate}
    (hind : ind = j.ind ∨ j.rq.WellEscaped ∧ j.rq.Fits) :
    (Worker.fresh.serve scripts { j with ind := ind }).map Prod.fst
      = (w.serve scripts j).map Prod.fst := by
  have hstored : (∀ q, queryString j.rq = .ok (some q) →
        storeParams ind q = storeParams j.ind q)
      ∧ storeEnvironment ind j.rq = storeEnvironment j.ind j.rq := by
    rcases hind with rfl | ⟨hesc, hfits⟩
    · exact ⟨fun _ _ => rfl, rfl⟩
    · exact ⟨fun q hq => storeParams_determined hesc hfits hq _ _,
        storeEnvironment_determined hfits _ _⟩
  have halike := processRequest_alike hscripts j.env j.fuel hstored.1 hstored.2
    Worker.fresh_clean.objs hw.objs ⟨fun _ => none, []⟩
  unfold Worker.serve
  rw [show w.symTable = fun _ => none from funext hw.symTable,
    show Worker.fresh.symTable = fun _ => none from rfl]
  rcases hr : (processRequest j.env scripts ind j.fuel j.rq
      Worker.fresh.objs).run ⟨fun _ => none, []⟩
      with ⟨e | ⟨visited, objs⟩, world⟩ <;>
    rcases hr' : (processRequest j.env scripts j.ind j.fuel j.rq w.objs).run
      ⟨fun _ => none, []⟩ with ⟨e' | ⟨visited', objs'⟩, world'⟩ <;>
    rw [hr, hr'] at halike
  · rw [halike.1]
  · exact halike.elim
  · exact halike.elim
  · obtain ⟨⟨rfl, -, -⟩, rfl⟩ := halike
    rfl

/-- Its answer is right. -/
theorem asFresh_of_serve {w w' : Worker} (hw : w.Clean) {j : Job}
    {served : Served} (h : w.serve scripts j = .ok (served, w')) :
    AsFresh scripts j.rq ⟨j, served⟩ := by
  refine ⟨rfl, fun ind hind => ?_⟩
  rw [hw.serve_eq hscripts hind, h]
  rfl

/-- Every worker is clean, whenever it is looked at. -/
def Serving.Clean (s : Serving) : Prop :=
  ∀ pid, (s.processes pid).worker.Clean

omit hscripts in
/-- A worker that stays clean keeps all clean. -/
theorem Serving.Clean.update {s : Serving} (hs : s.Clean) {pid : Nat}
    {p : Process} (hp : p.worker.Clean) (q : Nat) :
    (Function.update s.processes pid p q).worker.Clean := by
  rw [Function.update_apply]
  split
  · exact hp
  · exact hs q

/-- A turn keeps all workers clean. -/
theorem turn_clean {s t : Serving} {m : Move} (h : Turn scripts s m t)
    (hs : s.Clean) : t.Clean := by
  cases h with
  | around _ _ _ | exit _ _ _ _ | arrive _ => exact hs
  | fork _ _ _ => exact hs.update Worker.fresh_clean
  | @idle pid _ _ _ _ _ _ | @enter pid _ _ _ | @accept pid _ _ _ _ _
  | @refuse pid _ _ | @busy pid _ _ _ _ _ _ _ => exact hs.update (hs pid)
  | @respond pid _ _ _ _ _ _ _ hserve _ =>
      exact hs.update (Worker.serve_clean hscripts (hs pid) hserve)

end Fresh

-- =============================================================== the desk

/-- What a living worker has in hand. -/
def Serving.hand (s : Serving) (pid : Nat) : Option Ticket :=
  (s.station pid).bind Station.hand

/-- What has become of a number. -/
def Serving.Has (s : Serving) (n : Nat) : Status Request Reply → Prop
  | .unseen => s.arrivals.length ≤ n
  | .waiting rq => ⟨n, rq⟩ ∈ s.waiting
  | .taken rq => ∃ pid, s.hand pid = some ⟨n, rq⟩
  | .answered rq r => rq = r.job.rq ∧ ⟨n, r.job, r.served⟩ ∈ s.answered
  | .lost rq => ⟨n, rq⟩ ∈ s.lost

/-- The pool at work, and the desk it is. -/
structure Matches (s : Serving) (d : Nat → Status Request Reply) : Prop where
  has : ∀ n st, s.Has n st ↔ d n = st
  hands : ∀ p q x y, s.hand p = some x → s.hand q = some y → x.no = y.no →
    p = q
  waiting : (s.waiting.map Ticket.no).Nodup
  answered : (s.answered.map Answer.no).Nodup
  lost : (s.lost.map Ticket.no).Nodup
  request : ∀ n, (d n).request = s.arrivals[n]?

/-- Before the first request the two servers agree. -/
theorem start_matches : Matches .start blank where
  has := by
    intro n st
    have hhand : ∀ pid, Serving.start.hand pid = none := fun _ => rfl
    cases st with
    | unseen => exact iff_of_true (Nat.zero_le n) rfl
    | waiting rq | lost rq => exact iff_of_false List.not_mem_nil nofun
    | taken rq =>
        refine iff_of_false ?_ nofun
        rintro ⟨pid, h⟩
        rw [hhand] at h
        cases h
    | answered rq r => exact iff_of_false (fun h => List.not_mem_nil h.2) nofun
  hands := fun _ _ _ _ h => by cases h
  waiting := List.nodup_nil
  answered := List.nodup_nil
  lost := List.nodup_nil
  request := fun _ => rfl

/-- The single server knows what the pool has. -/
theorem Matches.of_has {s : Serving} {d : Nat → Status Request Reply}
    (hs : Matches s d) {n : Nat} {v : Status Request Reply}
    (h : s.Has n v) : d n = v := (hs.has n v).1 h

/-- Nothing has changed that the desk sees. -/
theorem Matches.congr {s t : Serving} {d : Nat → Status Request Reply}
    (hs : Matches s d) (hhand : t.hand = s.hand) (hwait : t.waiting = s.waiting)
    (hans : t.answered = s.answered) (hlost : t.lost = s.lost)
    (harr : t.arrivals = s.arrivals) : Matches t d where
  has := by
    intro n st
    rw [← hs.has n st]
    cases st <;> simp only [Serving.Has, hhand, hwait, hans, hlost, harr]
  hands := hhand ▸ hs.hands
  waiting := hwait ▸ hs.waiting
  answered := hans ▸ hs.answered
  lost := hlost ▸ hs.lost
  request := harr ▸ hs.request

-- ================================================================== moves

/-- A move changes the hand of one worker. -/
theorem hand_update {s t : Serving} {pid : Nat} {st : Option Station}
    (h : t.station = Function.update s.station pid st) :
    t.hand = Function.update s.hand pid (st.bind Station.hand) := by
  funext q
  rw [Serving.hand, h, Function.update_apply, Function.update_apply]
  split
  · rfl
  · rfl

/-- A worker that has the same in hand as before. -/
theorem hand_kept {s t : Serving} {pid : Nat} {st st' : Option Station}
    (h : t.station = Function.update s.station pid st')
    (hold : s.station pid = st)
    (hsame : st'.bind Station.hand = st.bind Station.hand) :
    t.hand = s.hand := by
  rw [hand_update h, hsame, ← hold]
  exact Function.update_eq_self pid s.hand

/-- The desk's view of one number has changed. -/
theorem has_update {s t : Serving} {d : Nat → Status Request Reply} {k : Nat}
    {st : Status Request Reply} (hs : Matches s d)
    (hrest : ∀ n, n ≠ k → ∀ st, t.Has n st ↔ s.Has n st)
    (hk : ∀ st', t.Has k st' ↔ st = st') (n : Nat)
    (st' : Status Request Reply) :
    t.Has n st' ↔ Function.update d k st n = st' := by
  by_cases hn : n = k
  · subst hn
    rw [Function.update_self]
    exact hk st'
  · rw [Function.update_of_ne hn, hrest n hn]
    exact hs.has n st'

theorem request_update {d : Nat → Status Request Reply} {k : Nat}
    {st : Status Request Reply} {l : List Request} (h : st.request = l[k]?)
    (hrest : ∀ n, n ≠ k → (d n).request = l[n]?) (n : Nat) :
    (Function.update d k st n).request = l[n]? := by
  by_cases hn : n = k
  · subst hn
    rw [Function.update_self, h]
  · rw [Function.update_of_ne hn]
    exact hrest n hn

/-- One more with a new number. -/
theorem nodup_concat {α : Type} {f : α → Nat} {l : List α} {a : α}
    (hl : (l.map f).Nodup) (ha : ∀ b ∈ l, f b ≠ f a) :
    ((l ++ [a]).map f).Nodup := by
  rw [List.map_append]
  refine List.nodup_append.2 ⟨hl, List.nodup_singleton _, ?_⟩
  intro k hk m hm heq
  obtain ⟨b, hb, rfl⟩ := List.mem_map.1 hk
  exact ha b hb (heq.trans (List.mem_singleton.1 hm))

/-- A number has one status. -/
theorem Matches.not_has {s : Serving} {d : Nat → Status Request Reply}
    (hs : Matches s d) {n : Nat} {u v : Status Request Reply}
    (hd : d n = u) (hne : u ≠ v) : ¬ s.Has n v :=
  fun h => hne (hd.symm.trans (hs.of_has h))

/-- A status the move does not touch. -/
theorem Matches.unaffected {s t : Serving} {d : Nat → Status Request Reply}
    (hs : Matches s d) {n : Nat} {old new st : Status Request Reply}
    (hd : d n = old) (hold : old ≠ st) (hiff : t.Has n st ↔ s.Has n st)
    (hnew : new ≠ st) : t.Has n st ↔ new = st :=
  iff_of_false (fun h => hs.not_has hd hold (hiff.1 h)) hnew

section Kept

variable {s t : Serving} {n : Nat} {rq : Request} {r : Reply}

theorem has_unseen (h : t.arrivals = s.arrivals) :
    t.Has n .unseen ↔ s.Has n .unseen := by
  simp only [Serving.Has, h]

theorem has_waiting (h : t.waiting = s.waiting) :
    t.Has n (.waiting rq) ↔ s.Has n (.waiting rq) := by
  simp only [Serving.Has, h]

theorem has_answered (h : t.answered = s.answered) :
    t.Has n (.answered rq r) ↔ s.Has n (.answered rq r) := by
  simp only [Serving.Has, h]

theorem has_lost (h : t.lost = s.lost) :
    t.Has n (.lost rq) ↔ s.Has n (.lost rq) := by
  simp only [Serving.Has, h]

end Kept

section Steps

variable {s t : Serving} {d : Nat → Status Request Reply} {pid : Nat}
  {x : Ticket}

/-- A request comes in. -/
theorem Matches.arrive (hs : Matches s d) (rq : Request) :
    d s.arrivals.length = .unseen
      ∧ Matches (s.arrive rq)
        (Function.update d s.arrivals.length (.waiting rq)) := by
  -- The new number is that of no request yet, whatever became of the others.
  have hnew : d s.arrivals.length = .unseen := hs.of_has (v := .unseen) le_rfl
  have hlen : (s.arrivals ++ [rq]).length = s.arrivals.length + 1 :=
    List.length_append
  refine ⟨hnew, ?_, hs.hands, ?_, hs.answered, hs.lost, ?_⟩
  · refine has_update hs (fun n hn st => ?_) fun st => ?_
    · cases st with
      | unseen =>
          show (s.arrivals ++ [rq]).length ≤ n ↔ s.arrivals.length ≤ n
          omega
      | waiting rq' =>
          show _ ∈ s.waiting ++ [_] ↔ _
          rw [List.mem_append, List.mem_singleton, Ticket.mk.injEq]
          exact or_iff_left fun h => hn h.1
      | taken _ | answered _ _ | lost _ => exact Iff.rfl
    · cases st with
      | unseen =>
          refine iff_of_false (fun h => ?_) nofun
          have h : (s.arrivals ++ [rq]).length ≤ s.arrivals.length := h
          omega
      | waiting rq' =>
          show _ ∈ s.waiting ++ [_] ↔ _
          rw [List.mem_append, List.mem_singleton, Ticket.mk.injEq]
          refine ⟨?_, fun h => Or.inr ⟨rfl, (Status.waiting.inj h).symm⟩⟩
          rintro (h | ⟨-, rfl⟩)
          · exact absurd h (hs.not_has (v := .waiting rq') hnew nofun)
          · rfl
      | taken _ => exact hs.unaffected hnew nofun Iff.rfl nofun
      | answered _ _ => exact hs.unaffected hnew nofun (has_answered rfl) nofun
      | lost _ => exact hs.unaffected hnew nofun (has_lost rfl) nofun
  · refine nodup_concat hs.waiting fun y hy hno => ?_
    have hno : y.no = s.arrivals.length := hno
    exact hs.not_has (v := .waiting y.rq) hnew nofun (hno ▸ hy)
  · refine request_update ?_ fun n hn => ?_
    · show _ = (s.arrivals ++ [rq])[_]?
      rw [List.getElem?_concat_length]
      rfl
    · show _ = (s.arrivals ++ [rq])[n]?
      rw [hs.request n]
      rcases Nat.lt_or_gt_of_ne hn with hlt | hgt
      · rw [List.getElem?_append_left hlt]
      · rw [List.getElem?_eq_none (Nat.le_of_lt hgt), List.getElem?_eq_none]
        omega

section Hand

variable {old new : Option Ticket} {k : Nat} (hold : s.hand pid = old)
  (hhand : t.hand = Function.update s.hand pid new)
include hold hhand

/-- What changes hands, and what does not. -/
theorem taken_update (hne : ∀ y ∈ old, y.no = k) (hne' : ∀ y ∈ new, y.no = k)
    {n : Nat} (hn : n ≠ k) (rq : Request) :
    (∃ q, t.hand q = some ⟨n, rq⟩) ↔ ∃ q, s.hand q = some ⟨n, rq⟩ := by
  refine exists_congr fun q => ?_
  rw [hhand, Function.update_apply]
  split
  next hq =>
    subst hq
    rw [hold]
    exact iff_of_false (fun h => hn (hne' _ h)) fun h => hn (hne _ h)
  · exact Iff.rfl

omit hold in
/-- No number is in two hands. -/
theorem hands_update (hs : Matches s d)
    (hfree : ∀ x ∈ new, ∀ q y, s.hand q = some y → y.no ≠ x.no) :
    ∀ p q x y, t.hand p = some x → t.hand q = some y → x.no = y.no →
      p = q := by
  intro p q x y hp hq hno
  rw [hhand, Function.update_apply] at hp hq
  by_cases hpp : p = pid <;> by_cases hqp : q = pid
  · exact hpp.trans hqp.symm
  · rw [if_pos hpp] at hp
    rw [if_neg hqp] at hq
    exact absurd hno.symm (hfree x hp q y hq)
  · rw [if_neg hpp] at hp
    rw [if_pos hqp] at hq
    exact absurd hno (hfree y hq p x hp)
  · rw [if_neg hpp] at hp
    rw [if_neg hqp] at hq
    exact hs.hands p q x y hp hq hno

/-- A hand that is empty now held the only copy. -/
theorem taken_none (hs : Matches s d) (hx : old = some x) (hnew : new = none)
    (rq : Request) : ¬ ∃ q, t.hand q = some ⟨x.no, rq⟩ := by
  rintro ⟨q, hq⟩
  rw [hhand, Function.update_apply] at hq
  split at hq
  · rw [hnew] at hq
    cases hq
  next hne => exact hne (hs.hands q pid _ x hq (hold.trans hx) rfl)

end Hand

/-- A worker takes a request. -/
theorem Matches.take (hs : Matches s d) (hperm : (x :: t.waiting).Perm s.waiting)
    (hold : s.hand pid = none)
    (hhand : t.hand = Function.update s.hand pid (some x))
    (hans : t.answered = s.answered) (hlost : t.lost = s.lost)
    (harr : t.arrivals = s.arrivals) :
    d x.no = .waiting x.rq
      ∧ Matches t (Function.update d x.no (.taken x.rq)) := by
  have hwas : d x.no = .waiting x.rq :=
    hs.of_has (v := .waiting x.rq) (hperm.subset List.mem_cons_self)
  have hnodup : ((x :: t.waiting).map Ticket.no).Nodup :=
    ((hperm.map Ticket.no).nodup_iff).2 hs.waiting
  rw [List.map_cons, List.nodup_cons] at hnodup
  refine ⟨hwas, ?_, ?_, hnodup.2, hans ▸ hs.answered, hlost ▸ hs.lost, ?_⟩
  · refine has_update hs (fun n hn st => ?_) fun st => ?_
    · cases st with
      | unseen => exact has_unseen harr
      | waiting rq =>
          show _ ∈ t.waiting ↔ _ ∈ s.waiting
          rw [← hperm.mem_iff, List.mem_cons]
          exact (or_iff_right fun h => hn (congrArg Ticket.no h)).symm
      | taken rq =>
          exact taken_update hold hhand nofun (fun y hy => by cases hy; rfl) hn rq
      | answered _ _ => exact has_answered hans
      | lost _ => exact has_lost hlost
    · cases st with
      | unseen => exact hs.unaffected hwas nofun (has_unseen harr) nofun
      | waiting rq =>
          refine iff_of_false (fun h => hnodup.1 ?_) nofun
          exact List.mem_map.2 ⟨_, h, rfl⟩
      | taken rq =>
          constructor
          · rintro ⟨q, hq⟩
            rw [hhand, Function.update_apply] at hq
            split at hq
            · rw [Option.some.inj hq]
            · exact absurd ⟨q, hq⟩ (hs.not_has (v := .taken rq) hwas nofun)
          · intro h
            cases h
            exact ⟨pid, by rw [hhand, Function.update_self]⟩
      | answered _ _ => exact hs.unaffected hwas nofun (has_answered hans) nofun
      | lost _ => exact hs.unaffected hwas nofun (has_lost hlost) nofun
  · refine hands_update hhand hs fun y hy q z hq hno => ?_
    cases hy
    refine hs.not_has (v := .taken z.rq) hwas nofun ⟨q, ?_⟩
    rw [hq, ← hno]
  · refine request_update ?_ fun n _ => harr ▸ hs.request n
    rw [harr, ← hs.request, hwas]
    rfl

/-- A worker answers the request it has. -/
theorem Matches.answer {r : Reply} (hs : Matches s d)
    (hold : s.hand pid = some x)
    (hhand : t.hand = Function.update s.hand pid none)
    (hwait : t.waiting = s.waiting)
    (hans : t.answered = s.answered ++ [⟨x.no, r.job, r.served⟩])
    (hrq : r.job.rq = x.rq) (hlost : t.lost = s.lost)
    (harr : t.arrivals = s.arrivals) :
    d x.no = .taken x.rq
      ∧ Matches t (Function.update d x.no (.answered x.rq r)) := by
  have hwas : d x.no = .taken x.rq := hs.of_has (v := .taken x.rq) ⟨pid, hold⟩
  have hnew : ∀ y ∈ s.answered, y.no ≠ x.no := fun y hy hno =>
    hs.not_has (v := .answered y.job.rq ⟨y.job, y.served⟩) hwas nofun
      ⟨rfl, hno ▸ hy⟩
  refine ⟨hwas, ?_, hands_update hhand hs nofun, hwait ▸ hs.waiting, ?_,
    hlost ▸ hs.lost, ?_⟩
  · refine has_update hs (fun n hn st => ?_) fun st => ?_
    · cases st with
      | unseen => exact has_unseen harr
      | waiting _ => exact has_waiting hwait
      | taken rq =>
          exact taken_update hold hhand (fun y hy => by cases hy; rfl) nofun hn rq
      | answered rq r' =>
          show _ ∧ _ ∈ t.answered ↔ _ ∧ _ ∈ s.answered
          rw [hans, List.mem_append, List.mem_singleton, Answer.mk.injEq]
          exact and_congr_right fun _ => or_iff_left fun h => hn h.1
      | lost _ => exact has_lost hlost
    · cases st with
      | unseen => exact hs.unaffected hwas nofun (has_unseen harr) nofun
      | waiting _ => exact hs.unaffected hwas nofun (has_waiting hwait) nofun
      | taken rq => exact iff_of_false (taken_none hold hhand hs rfl rfl rq) nofun
      | answered rq r' =>
          show _ ∧ _ ∈ t.answered ↔ _
          rw [hans, List.mem_append, List.mem_singleton, Answer.mk.injEq,
            Status.answered.injEq]
          constructor
          · rintro ⟨hrq', h | ⟨-, hjob, hserved⟩⟩
            · exact absurd rfl (hnew _ h)
            · obtain ⟨job, served⟩ := r
              obtain ⟨job', served'⟩ := r'
              cases hjob
              cases hserved
              exact ⟨(hrq'.trans hrq).symm, rfl⟩
          · rintro ⟨rfl, rfl⟩
            exact ⟨hrq.symm, Or.inr ⟨rfl, rfl, rfl⟩⟩
      | lost _ => exact hs.unaffected hwas nofun (has_lost hlost) nofun
  · rw [hans]
    exact nodup_concat hs.answered hnew
  · refine request_update ?_ fun n _ => harr ▸ hs.request n
    rw [harr, ← hs.request, hwas]
    rfl

/-- A request is lost with the worker that has it. -/
theorem Matches.lose (hs : Matches s d) (hold : s.hand pid = some x)
    (hhand : t.hand = Function.update s.hand pid none)
    (hwait : t.waiting = s.waiting) (hans : t.answered = s.answered)
    (hlost : t.lost = s.lost ++ [x]) (harr : t.arrivals = s.arrivals) :
    d x.no = .taken x.rq
      ∧ Matches t (Function.update d x.no (.lost x.rq)) := by
  have hwas : d x.no = .taken x.rq := hs.of_has (v := .taken x.rq) ⟨pid, hold⟩
  have hnew : ∀ y ∈ s.lost, y.no ≠ x.no := fun y hy hno =>
    hs.not_has (v := .lost y.rq) hwas nofun (hno ▸ hy)
  refine ⟨hwas, ?_, hands_update hhand hs nofun, hwait ▸ hs.waiting,
    hans ▸ hs.answered, ?_, ?_⟩
  · refine has_update hs (fun n hn st => ?_) fun st => ?_
    · cases st with
      | unseen => exact has_unseen harr
      | waiting _ => exact has_waiting hwait
      | taken rq =>
          exact taken_update hold hhand (fun y hy => by cases hy; rfl) nofun hn rq
      | answered _ _ => exact has_answered hans
      | lost rq =>
          show _ ∈ t.lost ↔ _ ∈ s.lost
          rw [hlost, List.mem_append, List.mem_singleton]
          exact or_iff_left fun h => hn (congrArg Ticket.no h)
    · cases st with
      | unseen => exact hs.unaffected hwas nofun (has_unseen harr) nofun
      | waiting _ => exact hs.unaffected hwas nofun (has_waiting hwait) nofun
      | taken rq => exact iff_of_false (taken_none hold hhand hs rfl rfl rq) nofun
      | answered _ _ => exact hs.unaffected hwas nofun (has_answered hans) nofun
      | lost rq =>
          show _ ∈ t.lost ↔ _
          rw [hlost, List.mem_append, List.mem_singleton, Status.lost.injEq]
          constructor
          · rintro (h | h)
            · exact absurd rfl (hnew ⟨x.no, rq⟩ h)
            · exact (congrArg Ticket.rq h).symm
          · rintro rfl
            exact Or.inr rfl
  · rw [hlost]
    exact nodup_concat hs.lost hnew
  · refine request_update ?_ fun n _ => harr ▸ hs.request n
    rw [harr, ← hs.request, hwas]
    rfl

end Steps

-- =================================================================== runs

/-- The state the desk and the pool at work are compared in. -/
structure AtDesk (s : Serving) (d : Nat → Status Request Reply) : Prop where
  distinct : s.pool.Distinct
  clean : s.Clean
  desk : Matches s d

theorem start_atDesk : AtDesk .start blank where
  distinct := List.nodup_nil
  clean := fun _ => Worker.fresh_clean
  desk := start_matches

/-- Nothing happens at the desk, or one event; an answer that is given is
a right one. -/
def OneEvent (scripts : Scripts) (d e : Nat → Status Request Reply) : Prop :=
  e = d ∨ ∃ ev, Proper (AsFresh scripts) d ev ∧ Desk.step d ev = some e

theorem OneEvent.reaches {scripts : Scripts} {d e : Nat → Status Request Reply}
    (h : OneEvent scripts d e) :
    Reaches Desk.step (Proper (AsFresh scripts)) d e := by
  rcases h with rfl | ⟨ev, hok, hstep⟩
  · exact .start
  · exact .next .start hok hstep

section Runs

variable {scripts : Scripts} (hscripts : ∀ sm ∈ scripts.maps, Accepted sm)
include hscripts

/-- A move is an event at the desk, or the desk does not see it. -/
theorem turn_matched {s t : Serving} {d : Nat → Status Request Reply}
    {m : Move} (h : Turn scripts s m t) (hclean : s.Clean) (hs : Matches s d) :
    ∃ e, OneEvent scripts d e ∧ Matches t e := by
  -- The single server sees four of the moves: an arrival, an acceptance, an
  -- answer and the exit of a worker that has a request.
  have hseen : ∀ {ev st n}, Desk.step d ev = some (Function.update d n st) →
      Proper (AsFresh scripts) d ev →
      Matches t (Function.update d n st) →
      ∃ e, OneEvent scripts d e ∧ Matches t e :=
    fun hstep hok ht => ⟨_, Or.inr ⟨_, hok, hstep⟩, ht⟩
  have hunseen : t.hand = s.hand → t.waiting = s.waiting →
      t.answered = s.answered → t.lost = s.lost → t.arrivals = s.arrivals →
      ∃ e, OneEvent scripts d e ∧ Matches t e :=
    fun hhand hwait hans hlost harr =>
      ⟨d, Or.inl rfl, hs.congr hhand hwait hans hlost harr⟩
  cases h with
  | around _ _ hst =>
      exact hunseen (funext fun q => congrArg (·.bind Station.hand)
        (congrFun hst q)) rfl rfl rfl rfl
  | fork _ hold hst => exact hunseen (hand_kept hst hold rfl) rfl rfl rfl rfl
  | @exit pid p st _ hold hproc hst =>
      cases hhand : st.hand with
      | none =>
          refine hunseen (hand_kept hst hold hhand.symm) rfl rfl ?_ rfl
          show s.lost ++ (s.processes pid).station.hand.toList = s.lost
          rw [hproc, hhand]
          exact List.append_nil _
      | some x =>
          have hhas : s.hand pid = some x := by rw [Serving.hand, hold]; exact hhand
          obtain ⟨hwas, ht⟩ := hs.lose (t := s.follow p (.exit pid)) hhas
            (hand_update hst) rfl rfl
            (by show s.lost ++ (s.processes pid).station.hand.toList = _
                rw [hproc, hhand]; rfl) rfl
          exact hseen (step_lose hwas) trivial ht
  | idle _ hold hfrom hst =>
      refine hunseen (hand_kept hst hold ?_) rfl rfl rfl rfl
      rcases hfrom with rfl | rfl <;> rfl
  | enter hold _ hst | refuse hold hst =>
      exact hunseen (hand_kept hst hold rfl) rfl rfl rfl rfl
  | @busy _ _ st st' _ hold hto hst =>
      refine hunseen (hand_kept hst hold ?_) rfl rfl rfl rfl
      cases st <;> cases hto <;> rfl
  | @accept pid i x hold hx hst =>
      obtain ⟨hi, hxi⟩ := List.getElem?_eq_some_iff.1 hx
      have hempty : s.hand pid = none := by rw [Serving.hand, hold]; rfl
      obtain ⟨hwas, ht⟩ := hs.take
        (t := Serving.moved { s with waiting := s.waiting.eraseIdx i } pid
          (.accepted x))
        (hxi ▸ List.getElem_cons_eraseIdx_perm hi) hempty (hand_update hst)
        rfl rfl rfl
      exact hseen (step_take hwas) trivial ht
  | @respond pid env ind fuel x served worker hold hserve hst =>
      have hhas : s.hand pid = some x := by rw [Serving.hand, hold]; rfl
      obtain ⟨hwas, ht⟩ := hs.answer
        (r := ⟨⟨env, ind, fuel, x.rq⟩, served⟩) hhas (hand_update hst) rfl rfl
        rfl rfl rfl
      refine hseen (step_answer hwas) (fun rq hd => ?_) ht
      -- The answer is that of a fresh worker, since this one is clean.
      have hrq : x.rq = rq := Status.taken.inj (hwas.symm.trans hd)
      rw [← hrq]
      exact asFresh_of_serve hscripts (hclean pid) hserve
  | arrive rq =>
      obtain ⟨hnew, ht⟩ := hs.arrive rq
      exact hseen (step_arrive hnew) trivial ht

/-- The same of a step of the pool, with all that is compared. -/
theorem step_atDesk {s t : Serving} {d : Nat → Status Request Reply} {m : Move}
    (hs : AtDesk s d) (h : s.step scripts m = some t) :
    ∃ e, OneEvent scripts d e ∧ AtDesk t e := by
  obtain ⟨hdistinct, hclean, hdesk⟩ := hs
  have hturn := turn_of_step hdistinct h
  obtain ⟨e, hone, ht⟩ := turn_matched hscripts hturn hclean hdesk
  exact ⟨e, hone, turn_distinct hturn hdistinct,
    turn_clean hscripts hturn hclean, ht⟩

/-- Every state of the pool is that of a desk. -/
theorem reaches_atDesk {ok : Serving → Move → Prop} {s : Serving}
    (h : Reaches (Serving.step scripts) ok .start s) :
    ∃ d, Reaches Desk.step (Proper (AsFresh scripts)) blank d ∧ AtDesk s d := by
  refine h.simulated ?_ start_atDesk
  intro s m t d _ hs hstep
  obtain ⟨e, hone, ht⟩ := step_atDesk hscripts hs hstep
  exact ⟨e, hone.reaches, ht⟩

end Runs

/-- Whatever the workers, the parent, the signals and the crashes do in
between, the pool at work is a desk at which every answer given is that
of a process that has served nothing before: each of its transitions is
one event at the desk or none, and so every run is one of the desk. -/
theorem pool_serves_as_one {scripts : Scripts}
    (hscripts : ∀ sm ∈ scripts.maps, Accepted sm) :
    (∀ (s t : Serving) (d : Nat → Status Request Reply) (m : Move),
        AtDesk s d → s.step scripts m = some t →
        ∃ e, OneEvent scripts d e ∧ AtDesk t e)
      ∧ ∀ (ok : Serving → Move → Prop) (s : Serving),
        Reaches (Serving.step scripts) ok .start s →
        ∃ d, Reaches Desk.step (Proper (AsFresh scripts)) blank d
          ∧ AtDesk s d :=
  ⟨fun _ _ _ _ hs h => step_atDesk hscripts hs h,
    fun _ _ h => reaches_atDesk hscripts h⟩

/-- The scripts of a server that prints a parameter. -/
abbrev greeter : Scripts := singleScript [(1, greeting (str "@0.X"))]

/-- The first worker answers a request. -/
def firstAnswer : List Move :=
  firstWorker ++ [.idle 100, .arrive (greetingJob ⟨0, []⟩).rq, .enter 100,
    .accept 100 0, .busy 100, .respond 100 .deaf ⟨0, []⟩ 1, .idle 100]

/-- The pool has answered the first request. -/
theorem firstAnswer_runs :
    ∃ s, Reaches (Serving.step greeter) (fun _ _ => True) .start s
      ∧ s.answered.map Answer.no = [0] := by
  have hrun : ∃ s ∈ exec (Serving.step greeter) .start firstAnswer,
      s.answered.map Answer.no = [0] := by decide +kernel
  obtain ⟨s, hs, hno⟩ := hrun
  exact ⟨s, reaches_of_exec hs (allowed_of_forall (fun _ _ => trivial) _ _), hno⟩

/-- It is the desk that has answered it, and that will go on. -/
theorem pool_serves_as_one_first :
    ∃ s : Serving, s.answered.map Answer.no = [0]
      ∧ ∃ d, Reaches Desk.step (Proper (AsFresh greeter)) blank d
        ∧ AtDesk s d
        ∧ ∀ m t, s.step greeter m = some t →
          ∃ e, OneEvent greeter d e ∧ AtDesk t e := by
  obtain ⟨s, h, hno⟩ := firstAnswer_runs
  obtain ⟨hstep, hrun⟩ := pool_serves_as_one greeting_accepted
  obtain ⟨d, hdesk, hs⟩ := hrun _ s h
  exact ⟨s, hno, d, hdesk, hs, fun m t ht => hstep s t d m hs ht⟩

/-- Every request that came in has one status: it waits, one living
worker has it, it was answered or it was lost. None is answered twice,
and every answer is to the request that came in under its number, and is
right. -/
theorem requests_accounted {scripts : Scripts}
    (hscripts : ∀ sm ∈ scripts.maps, Accepted sm)
    {ok : Serving → Move → Prop} {s : Serving}
    (h : Reaches (Serving.step scripts) ok .start s) :
    (∀ n, ∃ st, st.request = s.arrivals[n]? ∧ ∀ st', s.Has n st' ↔ st = st')
      ∧ (∀ p q x y, s.hand p = some x → s.hand q = some y → x.no = y.no →
        p = q)
      ∧ (s.answered.map Answer.no).Nodup
      ∧ ∀ a ∈ s.answered, s.arrivals[a.no]? = some a.job.rq
        ∧ AsFresh scripts a.job.rq ⟨a.job, a.served⟩ := by
  obtain ⟨d, hrun, -, -, hdesk⟩ := reaches_atDesk hscripts h
  refine ⟨fun n => ⟨d n, hdesk.request n, fun st' => hdesk.has n st'⟩,
    hdesk.hands, hdesk.answered, fun a ha => ?_⟩
  have hd : d a.no = .answered a.job.rq ⟨a.job, a.served⟩ :=
    hdesk.of_has (v := .answered a.job.rq ⟨a.job, a.served⟩) ⟨rfl, ha⟩
  refine ⟨?_, reaches_right hrun hd⟩
  rw [← hdesk.request, hd]
  rfl

/-- The first answer is right. -/
theorem requests_accounted_first :
    ∃ s : Serving, s.answered.map Answer.no = [0] ∧ ∀ a ∈ s.answered,
      AsFresh greeter a.job.rq ⟨a.job, a.served⟩ := by
  obtain ⟨s, h, hno⟩ := firstAnswer_runs
  have hright := (requests_accounted greeting_accepted h).2.2.2
  exact ⟨s, hno, fun a ha => (hright a ha).2⟩

end Appserver
