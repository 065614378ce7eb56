/-
What the loader of the pattern library reads, and the way back: a
loaded collection is dumped and filled again.

A buffer is a line wherever the text up to the newline is shorter than
the buffer (`buffers_line`). Of the others only comments are passed
over; everything else the loader takes comes from a buffer that ends in
its newline and holds no NUL, so it is the line `name=pattern` of an
entry that reads as itself (`ReadsBack`, `fillStep_inv`). Those are the
lines the dump writes. Its entries stand in the order of their names,
and entries assigned in order give the same map (`putAll_self`).
-/
import Appserver.Model.Collection

namespace Appserver

open Bytes

-- ============================================================== buffers

/-- A line that fits is read with its newline. -/
theorem fgets_line {line s : Str} {n : Nat} (hline : ch '\n' ∉ line)
    (hlen : line.length < n) :
    fgets n (line ++ ch '\n' :: s) = (line ++ [ch '\n'], s) := by
  induction line generalizing n with
  | nil =>
      obtain ⟨n, rfl⟩ : ∃ k, n = k + 1 := ⟨n - 1, by simp at hlen; omega⟩
      rw [List.nil_append, fgets, if_pos (beq_self_eq_true _)]
      rfl
  | cons b line ih =>
      obtain ⟨n, rfl⟩ : ∃ k, n = k + 1 := ⟨n - 1, by simp at hlen; omega⟩
      rw [List.mem_cons, not_or] at hline
      rw [List.length_cons] at hlen
      rw [List.cons_append, fgets, if_neg (by simpa using Ne.symm hline.1),
        ih hline.2 (by omega)]
      rfl

/-- A line that does not is read as far as the buffer goes. -/
theorem fgets_full {u : Str} (s : Str) (hu : ch '\n' ∉ u) :
    fgets u.length (u ++ s) = (u, s) := by
  induction u with
  | nil => rfl
  | cons b u ih =>
      rw [List.mem_cons, not_or] at hu
      rw [List.length_cons, List.cons_append, fgets,
        if_neg (by simpa using Ne.symm hu.1), ih hu.2]

/-- What a call leaves stands behind what it takes. -/
theorem fgets_append (n : Nat) (s : Str) : (fgets n s).1 ++ (fgets n s).2 = s := by
  induction n generalizing s with
  | zero => rfl
  | succ n ih =>
      cases s with
      | nil => rfl
      | cons b s =>
          rw [fgets]
          split
          · rfl
          · rw [List.cons_append, ih]

theorem fgets_length (n : Nat) (s : Str) : (fgets n s).1.length ≤ n := by
  induction n generalizing s with
  | zero => exact Nat.le_refl 0
  | succ n ih =>
      cases s with
      | nil => exact Nat.zero_le _
      | cons b s =>
          rw [fgets]
          split
          · simp
          · rw [List.length_cons]
            exact Nat.succ_le_succ (ih s)

/-- A newline ends the buffer. -/
theorem newline_of_fgets {n : Nat} {s u v : Str}
    (h : (fgets n s).1 = u ++ ch '\n' :: v) : v = [] := by
  induction n generalizing s u with
  | zero => simp [fgets] at h
  | succ n ih =>
      cases s with
      | nil => simp [fgets] at h
      | cons b s =>
          rw [fgets] at h
          split at h
          · cases u with
            | nil => exact (List.cons.inj h).2.symm
            | cons c u => exact absurd (List.cons.inj h).2 (by simp)
          next hb =>
            cases u with
            | nil => exact absurd (List.cons.inj h).1 (by simpa using hb)
            | cons c u => exact ih (List.cons.inj h).2

/-- Something of what is there is read. -/
theorem fgets_rest_lt {n : Nat} {s : Str} (hs : s ≠ []) :
    (fgets (n + 1) s).2.length < s.length := by
  have hlen := congrArg List.length (fgets_append (n + 1) s)
  have hpos : 0 < (fgets (n + 1) s).1.length := by
    cases s with
    | nil => exact absurd rfl hs
    | cons b s =>
        rw [fgets]
        split
        · exact Nat.one_pos
        · exact Nat.succ_pos _
  rw [List.length_append] at hlen
  omega

/-- Fuel beyond the length of the file is not used. -/
theorem fgetsLoop_fuel {f f' : Nat} {s : Str} (h : s.length ≤ f)
    (h' : s.length ≤ f') : fgetsLoop f s = fgetsLoop f' s := by
  induction f generalizing f' s with
  | zero =>
      obtain rfl := List.length_eq_zero_iff.1 (Nat.le_zero.1 h)
      cases f' <;> rfl
  | succ f ih =>
      cases f' with
      | zero =>
          obtain rfl := List.length_eq_zero_iff.1 (Nat.le_zero.1 h')
          rfl
      | succ f' =>
          rw [fgetsLoop, fgetsLoop]
          by_cases hs : s = []
          · simp [hs]
          · have hlt : (fgets bufRoom s).2.length < s.length := fgets_rest_lt hs
            rw [ih (by omega) (by omega : _ ≤ f')]

/-- The first buffer and the others. -/
theorem buffers_cons {s : Str} (hs : s ≠ []) :
    buffers s = (fgets bufRoom s).1 :: buffers (fgets bufRoom s).2 := by
  have hlt : (fgets bufRoom s).2.length < s.length := fgets_rest_lt hs
  obtain ⟨k, hk⟩ : ∃ k, s.length = k + 1 := ⟨s.length - 1, by omega⟩
  have hfuel : fgetsLoop k (fgets bufRoom s).2 = buffers (fgets bufRoom s).2 :=
    fgetsLoop_fuel (by omega) (Nat.le_refl _)
  rw [buffers, hk, fgetsLoop, if_neg (by simpa using hs), hfuel]

/-- A line that fits is one buffer. -/
theorem buffers_line {line : Str} (s : Str) (hline : ch '\n' ∉ line)
    (hlen : line.length < bufRoom) :
    buffers (line ++ ch '\n' :: s) = (line ++ [ch '\n']) :: buffers s := by
  rw [buffers_cons (by simp), fgets_line hline hlen]

/-- What is in a buffer: so many bytes, no newline but at the end. -/
theorem mem_buffers {s buf : Str} (h : buf ∈ buffers s) :
    buf.length ≤ bufRoom ∧ ∀ u v, buf = u ++ ch '\n' :: v → v = [] := by
  have hloop : ∀ {f : Nat} {s : Str}, buf ∈ fgetsLoop f s →
      ∃ t, buf = (fgets bufRoom t).1 := by
    intro f
    induction f with
    | zero => intro s hs; cases hs
    | succ f ih =>
        intro s hs
        rw [fgetsLoop] at hs
        split at hs
        · cases hs
        · rcases List.mem_cons.1 hs with rfl | hs
          · exact ⟨s, rfl⟩
          · exact ih hs
  obtain ⟨t, rfl⟩ := hloop h
  exact ⟨fgets_length _ _, fun u v => newline_of_fgets⟩

-- ================================================================ lines

/-- A line of a text file: no newline in it and no NUL. -/
structure IsLine (line : Str) : Prop where
  newline : ch '\n' ∉ line
  nul : (0 : Byte) ∉ line

/-- Lines that define nothing: empty ones and comments. -/
def isSkipped (line : Str) : Bool :=
  line.isEmpty || line.head? == some (ch '#')

/-- What a line defines. -/
def entry (line : Str) : Option (Str × Str) :=
  if isSkipped line then none else breakAt (ch '=') line

theorem rfindByte_append_singleton (b : Byte) (u : Str) :
    rfindByte b (u ++ [b]) = some u.length := by
  simp [rfindByte, findByte, List.findIdx?_cons]

theorem rfindByte_eq_none {b : Byte} {s : Str} :
    rfindByte b s = none ↔ b ∉ s := by
  rw [rfindByte, Option.map_eq_none_iff, findByte, List.findIdx?_eq_none_iff]
  constructor
  · intro h hb
    have hne := h b (List.mem_reverse.2 hb)
    rw [beq_self_eq_true] at hne
    cases hne
  · intro h x hx
    rw [beq_eq_false_iff_ne]
    intro heq
    exact h (heq ▸ List.mem_reverse.1 hx)

section Step

variable {regcomp : Str → Option Str} {regfile : Str} {count : Nat}
  {c c' : CRegexCollection} {line buf : Str} {e : Str × Str}

/-- The body of the loop on a line with its newline. -/
theorem fillStep_line (hline : IsLine line) :
    fillStep regcomp regfile count c (line ++ [ch '\n'])
      = if isSkipped line then .ok c
        else fillEntry regcomp regfile count c line := by
  have hnul : (0 : Byte) ∉ line ++ [ch '\n'] := by
    rw [List.mem_append, not_or]
    exact ⟨hline.nul, by decide⟩
  rw [fillStep, cstr_eq_self hnul, rfindByte_append_singleton]
  dsimp only
  rw [List.take_left]
  cases line with
  | nil => rfl
  | cons b line =>
      have hb : (some b == some (ch '\n')) = false := by
        refine beq_eq_false_iff_ne.2 fun heq => hline.newline ?_
        rw [← Option.some.inj heq]
        exact List.mem_cons_self
      rw [List.cons_append, List.head?_cons, hb, isSkipped, List.isEmpty_cons,
        Bool.false_or, List.head?_cons, if_neg Bool.false_ne_true]

/-- A comment or a blank line adds nothing. -/
theorem fillStep_skipped (hline : IsLine line) (h : isSkipped line = true) :
    fillStep regcomp regfile count c (line ++ [ch '\n']) = .ok c := by
  rw [fillStep_line hline, if_pos h]

/-- An entry with a good expression is added. -/
theorem fillStep_entry (hline : IsLine line) (h : entry line = some e)
    (hacc : regcomp e.2 = none) :
    fillStep regcomp regfile count c (line ++ [ch '\n']) = .ok (c.put e) := by
  rw [entry] at h
  split at h
  · cases h
  next hskip =>
    rw [fillStep_line hline, if_neg hskip, fillEntry, h]
    dsimp only
    rw [newCRegex, hacc]
    rfl

/-- An entry as a line of a library says it, one the loader reads back. -/
structure ReadsBack (regcomp : Str → Option Str) (e : Str × Str) : Prop where
  line : IsLine (e.1 ++ ch '=' :: e.2)
  fits : (e.1 ++ ch '=' :: e.2).length < bufRoom
  reads : entry (e.1 ++ ch '=' :: e.2) = some e
  accepted : regcomp e.2 = none

/-- A buffer whose C string has a newline is a line with it. -/
theorem exists_line (hend : ∀ u v, buf = u ++ ch '\n' :: v → v = [])
    (hnl : ch '\n' ∈ cstr buf) :
    ∃ line, IsLine line ∧ buf = line ++ [ch '\n'] := by
  obtain ⟨line, v, htext, hline⟩ := List.eq_append_cons_of_mem hnl
  obtain ⟨w, hbuf⟩ : cstr buf <+: buf := List.takeWhile_prefix _
  have hnil : v ++ w = [] := by
    apply hend line (v ++ w)
    rw [← hbuf, htext, List.append_assoc, List.cons_append]
  obtain ⟨rfl, rfl⟩ := List.append_eq_nil_iff.1 hnil
  rw [List.append_nil] at hbuf
  refine ⟨line, ⟨hline, fun h0 => nul_not_mem_cstr buf ?_⟩, ?_⟩
  · rw [htext]
    exact List.mem_append_left _ h0
  · rw [← hbuf, htext]

/-- What a line that did not throw has done. -/
theorem fillStep_line_inv (hline : IsLine line) (hlen : line.length < bufRoom)
    (h : fillStep regcomp regfile count c (line ++ [ch '\n']) = .ok c') :
    c' = c ∨ ∃ e, ReadsBack regcomp e ∧ c' = c.put e := by
  rw [fillStep_line hline] at h
  split at h
  · exact Or.inl (Except.ok.inj h).symm
  next hskip =>
    unfold fillEntry at h
    split at h
    · cases h
    next name reg hbreak =>
      have heq : line = name ++ ch '=' :: reg := (breakAt_eq_some.1 hbreak).1
      rw [newCRegex] at h
      split at h
      next hacc =>
        refine Or.inr ⟨(name, reg), ⟨?_, ?_, ?_, hacc⟩, (Except.ok.inj h).symm⟩
        · rwa [← heq]
        · rwa [← heq]
        · rw [← heq, entry, if_neg hskip, hbreak]
      · cases h

/-- What a buffer that did not throw has done. -/
theorem fillStep_inv (hlen : buf.length ≤ bufRoom)
    (hend : ∀ u v, buf = u ++ ch '\n' :: v → v = [])
    (h : fillStep regcomp regfile count c buf = .ok c') :
    c' = c ∨ ∃ e, ReadsBack regcomp e ∧ c' = c.put e := by
  by_cases hnl : ch '\n' ∈ cstr buf
  · obtain ⟨line, hline, rfl⟩ := exists_line hend hnl
    rw [List.length_append] at hlen
    exact fillStep_line_inv hline hlen h
  · -- without a newline only a comment goes by
    rw [fillStep, rfindByte_eq_none.2 hnl] at h
    dsimp only at h
    split at h
    · exact Or.inl (Except.ok.inj h).symm
    · split at h
      · exact Or.inl (Except.ok.inj h).symm
      · cases h

-- ================================================================= runs

/-- What is in the collection reads back as it is. -/
theorem fillLoop_inv {bufs : List Str}
    (hbufs : ∀ buf ∈ bufs, buf.length ≤ bufRoom
      ∧ ∀ u v, buf = u ++ ch '\n' :: v → v = [])
    (hc : ∀ e ∈ c.regmap, ReadsBack regcomp e)
    (h : fillLoop regcomp regfile count c bufs = .ok c') :
    ∀ e ∈ c'.regmap, ReadsBack regcomp e := by
  induction bufs generalizing count c with
  | nil =>
      rw [fillLoop] at h
      cases h
      exact hc
  | cons buf bufs ih =>
      rw [List.forall_mem_cons] at hbufs
      rw [fillLoop] at h
      cases hstep : fillStep regcomp regfile (count + 1) c buf with
      | error err =>
          rw [hstep] at h
          cases h
      | ok d =>
          rw [hstep] at h
          refine ih hbufs.2 ?_ h
          rcases fillStep_inv hbufs.1.1 hbufs.1.2 hstep with rfl | ⟨e, he, rfl⟩
          · exact hc
          · intro e' he'
            rcases OrderedMap.mem_put he' with rfl | he'
            · exact he
            · exact hc e' he'

/-- The lines of entries are read back as the entries. -/
theorem fillLoop_entries {es : List (Str × Str)}
    (hes : ∀ e ∈ es, ReadsBack regcomp e) :
    fillLoop regcomp regfile count c
        (es.map fun e => e.1 ++ ch '=' :: e.2 ++ [ch '\n'])
      = .ok (es.foldl .put c) := by
  induction es generalizing count c with
  | nil => rfl
  | cons e es ih =>
      rw [List.forall_mem_cons] at hes
      rw [List.map_cons, fillLoop,
        fillStep_entry hes.1.line hes.1.reads hes.1.accepted]
      exact ih hes.2

/-- Entries put one by one. -/
theorem regmap_foldl_put (es : List (Str × Str)) (c : CRegexCollection) :
    (es.foldl .put c).regmap = OrderedMap.putAll es c.regmap := by
  induction es generalizing c with
  | nil => rfl
  | cons e es ih => exact ih (c.put e)

/-- Lines that fit are one buffer each. -/
theorem buffers_joinLines {lines : List Str}
    (h : ∀ line ∈ lines, ch '\n' ∉ line ∧ line.length < bufRoom) :
    buffers (joinLines lines) = lines.map (· ++ [ch '\n']) := by
  induction lines with
  | nil => rfl
  | cons line lines ih =>
      rw [List.forall_mem_cons] at h
      rw [joinLines, List.flatMap_cons, List.append_assoc]
      show buffers (line ++ ch '\n' :: joinLines lines) = _
      rw [buffers_line _ h.1.1 h.1.2, ih h.2, List.map_cons]

/-- A dump is a file of entries. -/
theorem dump_eq_joinLines (c : CRegexCollection) :
    c.dump = joinLines (c.regmap.map fun e => e.1 ++ ch '=' :: e.2) := by
  rw [CRegexCollection.dump, joinLines, List.flatMap_map]

end Step

/-- What a fill made of any text is dumped as a text that fills an empty
collection with it again. -/
theorem fill_dump {regcomp : Str → Option Str} {regfile regfile' content : Str}
    {c : CRegexCollection}
    (h : CRegexCollection.fill regcomp regfile .init (some content) = .ok c) :
    CRegexCollection.fill regcomp regfile' .init (some c.dump) = .ok c := by
  have hloaded : ∀ e ∈ c.regmap, ReadsBack regcomp e :=
    fillLoop_inv (fun _ hbuf => mem_buffers hbuf)
      (fun e he => absurd he List.not_mem_nil) h
  have hbuffers : buffers c.dump
      = c.regmap.map fun e => e.1 ++ ch '=' :: e.2 ++ [ch '\n'] := by
    rw [dump_eq_joinLines, buffers_joinLines, List.map_map]
    · rfl
    · intro line hline
      obtain ⟨e, he, rfl⟩ := List.mem_map.1 hline
      exact ⟨(hloaded e he).line.newline, (hloaded e he).fits⟩
  rw [CRegexCollection.fill, hbuffers, fillLoop_entries hloaded]
  congr 1
  refine CRegexCollection.ext ?_
  rw [regmap_foldl_put]
  exact OrderedMap.putAll_self c.sorted

theorem fill_dump_two :
    CRegexCollection.fill (fun _ => none) (str "copy") .init
        (some (str "a=[0-9]\nb==\n"))
      = .ok ([(str "a", str "[0-9]"), (str "b", str "=")].foldl .put .init) :=
  @fill_dump (fun _ => none) (str "lib") (str "copy")
    (str "b=1\n# a=2\n\na=[0-9]\nb==\n") _ rfl

end Appserver
