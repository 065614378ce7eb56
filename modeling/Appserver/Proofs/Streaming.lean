/-
The payload callback of a mail state, over the calls libcurl makes.

A call copies the next line whole, whatever room it is offered, and the
counter moves on by one line. So a session of calls delivers the lines
one by one and then ends (`deliver_eq`), and the only thing that can go
wrong is a line longer than the buffer it is copied into
(`streams_iff`).
-/
import Appserver.Model.Execute

namespace Appserver

open Bytes

/-- The lines of a message, none of them empty. -/
structure Message where
  lines : List Str
  nonempty : ∀ line ∈ lines, line ≠ []

/-- One call of the callback, with some room. -/
structure WriterCall where
  size : UInt64
  nmemb : UInt64
  some_room : 1 ≤ size * nmemb

/-- The bytes the buffer of a call takes. -/
def WriterCall.room (c : WriterCall) : Nat := (c.size * c.nmemb).toNat

/-- What the calls write, up to the first that answers 0. -/
def deliver (smtpMessage : List Str) : Nat → List WriterCall → List Str
  | _, [] => []
  | lines, c :: calls =>
      let (chunk, lines) := payloadWriter smtpMessage lines c.size c.nmemb
      if chunk.isEmpty then [chunk]
      else chunk :: deliver smtpMessage lines calls

/-- The calls stream the message: no call writes more than its buffer
takes, only what is behind the last byte is answered with 0, and the
chunks of a finished session are the message. -/
structure Streams (msg : Message) (calls : List WriterCall) : Prop where
  fits : ∀ (i : Nat) (chunk : Str) (c : WriterCall),
    (deliver msg.lines 0 calls)[i]? = some chunk → calls[i]? = some c →
    chunk.length ≤ c.room
  ends : ∀ i : Nat, (deliver msg.lines 0 calls)[i]? = some [] →
    ((deliver msg.lines 0 calls).take i).flatten = msg.lines.flatten
  whole : [] ∈ deliver msg.lines 0 calls →
    (deliver msg.lines 0 calls).flatten = msg.lines.flatten

/-- One call of the callback hands over one line. -/
theorem payloadWriter_eq (smtpMessage : List Str) (lines : Nat)
    (c : WriterCall) : payloadWriter smtpMessage lines c.size c.nmemb
      = match smtpMessage[lines]? with
        | some data => (data, lines + 1)
        | none => ([], lines) := by
  have hroom := c.some_room
  have hsize : c.size ≠ 0 := by
    intro h
    rw [h, UInt64.zero_mul] at hroom
    exact absurd hroom (by decide)
  have hnmemb : c.nmemb ≠ 0 := by
    intro h
    rw [h, UInt64.mul_zero] at hroom
    exact absurd hroom (by decide)
  have hlt : ¬ c.size * c.nmemb < 1 := UInt64.not_lt.2 hroom
  unfold payloadWriter
  exact if_neg (by simp [hsize, hnmemb, hlt])

/-- The calls deliver the lines one by one, and one more call ends the
session. -/
theorem deliver_eq (msg : Message) :
    ∀ (calls : List WriterCall) (lines : Nat), lines ≤ msg.lines.length →
      deliver msg.lines lines calls
        = (msg.lines.drop lines).take calls.length
          ++ if msg.lines.length < lines + calls.length then [[]] else [] := by
  intro calls
  induction calls with
  | nil =>
      intro lines hle
      rw [deliver, List.length_nil, List.take_zero, if_neg (by omega)]
      rfl
  | cons c calls ih =>
      intro lines hle
      rw [deliver, payloadWriter_eq]
      by_cases hlt : lines < msg.lines.length
      · have hmem := List.getElem_mem hlt
        have hne : (msg.lines[lines]).isEmpty = false := by
          simpa using msg.nonempty _ hmem
        rw [List.getElem?_eq_getElem hlt]
        simp only [hne, Bool.false_eq_true, if_false]
        rw [ih (lines + 1) hlt, List.drop_eq_getElem_cons hlt,
          List.length_cons, List.take_succ_cons, List.cons_append,
          show lines + 1 + calls.length = lines + (calls.length + 1) by omega]
      · have heq : lines = msg.lines.length := by omega
        rw [List.getElem?_eq_none (by omega), List.drop_of_length_le (by omega),
          List.take_nil, if_pos (by simp [heq])]
        rfl

/-- A session that is not longer than the message delivers lines of it; a
longer one delivers them all, and then ends. -/
theorem deliver_session (msg : Message) (calls : List WriterCall) :
    deliver msg.lines 0 calls
      = if msg.lines.length < calls.length then msg.lines ++ [[]]
        else msg.lines.take calls.length := by
  rw [deliver_eq msg calls 0 (Nat.zero_le _), List.drop_zero, Nat.zero_add]
  split_ifs with hlt
  · rw [List.take_of_length_le hlt.le]
  · rw [List.append_nil]

/-- The callback streams the message just when each line fits into the
buffer of the call that delivers it. -/
theorem streams_iff (msg : Message) (calls : List WriterCall) :
    Streams msg calls
      ↔ ∀ (i : Nat) (line : Str) (c : WriterCall), msg.lines[i]? = some line →
        calls[i]? = some c → line.length ≤ c.room := by
  have hnonempty : ∀ {i : Nat}, msg.lines[i]? ≠ some [] := fun hi =>
    msg.nonempty _ (List.mem_of_getElem? hi) rfl
  have hsession := deliver_session msg calls
  constructor
  · intro h i line c hl hc
    obtain ⟨hi, -⟩ := List.getElem?_eq_some_iff.1 hl
    obtain ⟨hi', -⟩ := List.getElem?_eq_some_iff.1 hc
    apply h.fits i line c _ hc
    rw [hsession]
    split_ifs
    · rw [List.getElem?_append_left hi, hl]
    · rw [List.getElem?_take_of_lt hi', hl]
  · intro h
    split_ifs at hsession with hlt
    · refine ⟨fun i chunk c hchunk hc => ?_, fun i hi => ?_, fun _ => ?_⟩
      · rw [hsession] at hchunk
        by_cases hi : i < msg.lines.length
        · rw [List.getElem?_append_left hi] at hchunk
          exact h i chunk c hchunk hc
        · rw [List.getElem?_append_right (by omega)] at hchunk
          have hmem := List.mem_of_getElem? hchunk
          rw [List.mem_singleton.1 hmem]
          exact Nat.zero_le _
      · rw [hsession] at hi ⊢
        have hle : ¬ i < msg.lines.length := fun hlt' => by
          rw [List.getElem?_append_left hlt'] at hi
          exact hnonempty hi
        have hlen := (List.getElem?_eq_some_iff.1 hi).1
        rw [List.length_append, List.length_singleton] at hlen
        rw [show i = msg.lines.length by omega, List.take_left]
      · rw [hsession, List.flatten_append]
        simp
    · refine ⟨fun i chunk c hchunk hc => ?_, fun i hi => ?_, fun hmem => ?_⟩
      · rw [hsession, List.getElem?_take_of_lt
          (List.getElem?_eq_some_iff.1 hc).1] at hchunk
        exact h i chunk c hchunk hc
      · rw [hsession] at hi
        have hmem := List.mem_of_mem_take (List.mem_of_getElem? hi)
        exact absurd rfl (msg.nonempty _ hmem)
      · rw [hsession] at hmem
        exact absurd rfl (msg.nonempty _ (List.mem_of_mem_take hmem))

/-- A message of one long line. -/
def Message.long (n : Nat) : Message where
  lines := [List.replicate (n + 1) (ch 'a')]
  nonempty := by
    intro line hline
    rw [List.mem_singleton.1 hline, Ne, List.replicate_eq_nil_iff]
    exact Nat.succ_ne_zero n

/-- A line of 16385 bytes is copied into a buffer of 16384. -/
theorem line_overruns :
    ¬ Streams (.long 16384) [⟨1, 16384, by decide⟩] := by
  intro h
  have hfits := h.fits 0 (List.replicate 16385 (ch 'a')) ⟨1, 16384, by decide⟩
    (by rw [deliver_session]; rfl) rfl
  rw [List.length_replicate] at hfits
  exact absurd hfits (by decide)

end Appserver
