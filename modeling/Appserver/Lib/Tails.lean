/-
Anchored patterns on a text with something appended.

Where everything a row of items can take ends in a byte of some class
(`Tails`), bytes outside the class behind a text are not taken: the row
divides the longer text as it divides the shorter one
(`Tails.mem_parses`). So a pattern that is such a row matches the same
(`Tails.regexec_append`), and so does one that ends in a run of the
appended bytes and `$`, up to the end of the match (`Tails.regexec_run`).
-/
import Appserver.Lib.Anchored

namespace Ere

open Bytes

-- ============================================================ last bytes

/-- What the row takes, if anything, ends in a byte of the class. -/
def Tails (c : Byte → Bool) (is : List Item) : Prop :=
  ∀ w ls, ls ∈ parses false is w →
    ∀ b, (w.take ls.sum).getLast? = some b → c b = true

/-- An empty row takes nothing. -/
theorem Tails.nil (c : Byte → Bool) : Tails c [] := by
  intro w ls h b hb
  rw [(mem_parses_nil.1 h).1] at hb
  cases hb

/-- It is the last item that decides, when it takes something. -/
theorem tails_append {c : Byte → Bool} {is : List Item} {i : Item}
    (hi : ∀ u, Lang i.atoms u → ∃ v b, u = v ++ [b] ∧ c b = true) :
    Tails c (is ++ [i]) := by
  intro w ls h b hb
  obtain ⟨p, q, rfl, -, hq⟩ := mem_parses_append.1 h
  obtain ⟨n, ns, rfl, hn, hns⟩ := mem_parses_cons.1 hq
  obtain ⟨v, d, hv, hd⟩ := hi _ (mem_prefixes.1 hn).2
  rw [(mem_parses_nil.1 hns).1, List.sum_append, List.sum_singleton,
    List.take_add, hv, ← List.append_assoc, List.getLast?_concat] at hb
  rw [← Option.some_inj.1 hb]
  exact hd

/-- Words of one class that are not empty. -/
theorem ends_of_lang {c : Byte → Bool} {a : Atom} {as : List Atom}
    (ha : a.quant.allows 0 = false)
    (hall : ∀ x ∈ a :: as, ∀ b, x.cls b = true → c b = true) :
    ∀ u, Lang (a :: as) u → ∃ v b, u = v ++ [b] ∧ c b = true := by
  intro u hu
  have hc : ∀ b ∈ u, c b = true := by
    intro b hb
    obtain ⟨x, hx, hcls⟩ := mem_lang hu b hb
    exact hall x hx b hcls
  have hne : u ≠ [] := by
    obtain ⟨v, z, rfl, hv, -⟩ := hu
    intro hnil
    have hq := hv.2
    rw [(List.append_eq_nil_iff.1 hnil).1, List.length_nil, ha] at hq
    cases hq
  refine ⟨u.dropLast, u.getLast hne, ?_, hc _ (List.getLast_mem hne)⟩
  exact (List.dropLast_append_getLast hne).symm

/-- A row that ends in a keyword. -/
theorem tails_keyword {c : Byte → Bool} {is : List Item} {kw : Str}
    (h : kw.getLast?.any c = true) : Tails c (is ++ keyword kw) := by
  obtain ⟨b, hb, hc⟩ := (Option.any_eq_true _ _).1 h
  obtain ⟨v, rfl⟩ := List.getLast?_eq_some_iff.1 hb
  have hitems : is ++ keyword (v ++ [b])
      = (is ++ keyword v) ++ [⟨false, [⟨(· == b), .one⟩]⟩] := by
    simp [keyword]
  rw [hitems]
  refine tails_append (ends_of_lang rfl fun x hx d hd => ?_)
  rw [List.mem_singleton.1 hx] at hd
  rw [beq_iff_eq.1 hd]
  exact hc

-- ======================================================= longer texts

section Appended

variable {c : Byte → Bool} {is : List Item} (h : Tails c is) {u : Str}
  (hu : ∀ b ∈ u, c b = false)
include h hu

/-- Bytes outside the class are not taken. -/
theorem Tails.sum_le {w : Str} {ls : List Nat}
    (hls : ls ∈ parses false is (w ++ u)) : ls.sum ≤ w.length := by
  by_contra hlt
  have hsum := (length_of_mem_parses hls).2
  rw [List.length_append] at hsum
  have htake : (w ++ u).take ls.sum = w ++ u.take (ls.sum - w.length) := by
    rw [List.take_append, List.take_of_length_le (by omega)]
  have hne : u.take (ls.sum - w.length) ≠ [] := by
    rw [← List.length_pos_iff, List.length_take]
    omega
  obtain ⟨b, hb⟩ := Option.ne_none_iff_exists'.1
    (mt List.getLast?_eq_none_iff.1 hne)
  have hc := h _ _ hls b (by rw [htake, List.getLast?_append, hb]; rfl)
  rw [hu b (List.mem_of_mem_take (List.mem_of_getLast? hb))] at hc
  cases hc

/-- The row divides the longer text as it divides the shorter one. -/
theorem Tails.mem_parses {w : Str} {ls : List Nat} :
    ls ∈ parses false is (w ++ u) ↔ ls ∈ parses false is w := by
  constructor
  · intro hls
    exact (mem_parses_of_le (h.sum_le hu hls)).1 hls
  · intro hls
    exact (mem_parses_of_le (length_of_mem_parses hls).2).2 hls

/-- Without `$` the match is the same. -/
theorem Tails.regexec_append (w : Str) :
    regexec ⟨true, is, false⟩ (w ++ u) = regexec ⟨true, is, false⟩ w := by
  have hpick : pick (parses false is (w ++ u)) = pick (parses false is w) := by
    have hmap := @pick_map (parses false is w) (parses false is (w ++ u)) id
      (fun q => by rw [h.mem_parses hu]; simp) fun _ _ _ _ hle => hle
    rwa [Option.map_id, id] at hmap
  rw [regexec, regexec, if_pos rfl, if_pos rfl, matchAt, matchAt, hpick]

end Appended

-- ============================================================ final runs

/-- A last length that grows by the same in both changes no comparison. -/
theorem posixLt_snoc {p q : List Nat} {m n k : Nat}
    (hlen : p.length = q.length) :
    posixLt (p ++ [m + k]) (q ++ [n + k]) = posixLt (p ++ [m]) (q ++ [n]) := by
  have hlex : lexLt (p ++ [m + k]) (q ++ [n + k])
      = lexLt (p ++ [m]) (q ++ [n]) := by
    induction p generalizing q with
    | nil =>
        rw [List.length_eq_zero_iff.1 hlen.symm]
        simp [lexLt]
    | cons a p ih =>
        cases q with
        | nil => cases hlen
        | cons b q =>
            simp only [List.cons_append, lexLt, ih (Nat.succ.inj hlen)]
  have hsum : ∀ {l : List Nat} {j : Nat},
      (l ++ [j + k]).sum = (l ++ [j]).sum + k := by
    intro l j
    simp only [List.sum_append, List.sum_singleton]
    omega
  have heq : ∀ i j : Nat, (i + k == j + k) = (i == j) := by
    intro i j
    rw [Bool.eq_iff_iff, beq_iff_eq, beq_iff_eq]
    omega
  simp only [posixLt, hlex, hsum, heq, Nat.add_lt_add_iff_right]

/-- A row, and a run of a class up to the end of the text. -/
theorem mem_parses_run {d : Byte → Bool} {is : List Item} {w : Str}
    {ls : List Nat} :
    ls ∈ parses true (is ++ [⟨false, [⟨d, .star⟩]⟩]) w
      ↔ ∃ p, ls = p ++ [(w.drop p.sum).length] ∧ p ∈ parses false is w
        ∧ ∀ b ∈ w.drop p.sum, d b = true := by
  rw [mem_parses_append]
  refine exists_congr fun p => ?_
  constructor
  · intro h
    obtain ⟨q, rfl, hp, hq⟩ := h
    obtain ⟨n, ns, rfl, hn, hns⟩ := mem_parses_cons.1 hq
    obtain ⟨rfl, hend⟩ := mem_parses_nil.1 hns
    obtain ⟨hle, hlang⟩ := mem_prefixes.1 hn
    have hlen := List.drop_eq_nil_iff.1 (hend rfl)
    have hn' : n = (w.drop p.sum).length := Nat.le_antisymm hle hlen
    rw [hn', List.take_length] at hlang
    exact ⟨by rw [hn'], hp, (lang_single.1 hlang).1⟩
  · intro h
    obtain ⟨rfl, hp, hall⟩ := h
    refine ⟨_, rfl, hp, mem_parses_cons.2 ⟨_, [], rfl, ?_, ?_⟩⟩
    · refine mem_prefixes.2 ⟨Nat.le_refl _, ?_⟩
      rw [List.take_length]
      exact lang_single.2 ⟨hall, rfl⟩
    · rw [List.drop_length]
      exact mem_parses_nil.2 ⟨rfl, fun _ => rfl⟩

/-- Before a run of the appended bytes and `$` the groups are the same. -/
theorem Tails.regexec_run {c d : Byte → Bool} {is : List Item} {u : Str}
    (h : Tails c is) (hcd : ∀ b, d b = true → c b = false)
    (hu : ∀ b ∈ u, d b = true) (w : Str) :
    (regexec ⟨true, is ++ [⟨false, [⟨d, .star⟩]⟩], true⟩ (w ++ u)).map List.tail
      = (regexec ⟨true, is ++ [⟨false, [⟨d, .star⟩]⟩], true⟩ w).map
        List.tail := by
  have huc : ∀ b ∈ u, c b = false := fun b hb => hcd b (hu b hb)
  let longer (ls : List Nat) : List Nat :=
    ls.dropLast ++ [ls.getLastD 0 + u.length]
  have hlonger : ∀ (p : List Nat) (n : Nat),
      longer (p ++ [n]) = p ++ [n + u.length] := by
    intro p n
    simp [longer]
  have hdrop : ∀ {p : List Nat}, p.sum ≤ w.length →
      (w ++ u).drop p.sum = w.drop p.sum ++ u :=
    fun hle => List.drop_append_of_le_length hle
  have hpick : pick (parses true (is ++ [⟨false, [⟨d, .star⟩]⟩]) (w ++ u))
      = (pick (parses true (is ++ [⟨false, [⟨d, .star⟩]⟩]) w)).map longer := by
    refine pick_map (fun q => ?_) fun l hl l' hl' hle => ?_
    · rw [mem_parses_run]
      constructor
      · intro hq
        obtain ⟨p, rfl, hp, hall⟩ := hq
        have hle := h.sum_le huc hp
        rw [hdrop hle] at hall ⊢
        refine ⟨_, mem_parses_run.2 ⟨p, rfl, (h.mem_parses huc).1 hp, ?_⟩, ?_⟩
        · exact fun b hb => hall b (List.mem_append_left _ hb)
        · rw [hlonger, List.length_append]
      · intro hq
        obtain ⟨l, hl, rfl⟩ := hq
        obtain ⟨p, rfl, hp, hall⟩ := mem_parses_run.1 hl
        have hle := (length_of_mem_parses hp).2
        refine ⟨p, ?_, (h.mem_parses huc).2 hp, fun b hb => ?_⟩
        · rw [hlonger, hdrop hle, List.length_append]
        · rw [hdrop hle] at hb
          exact (List.mem_append.1 hb).elim (hall b) (hu b)
    · obtain ⟨p, rfl, hp, -⟩ := mem_parses_run.1 hl
      obtain ⟨p', rfl, hp', -⟩ := mem_parses_run.1 hl'
      have hlen : p'.length = p.length :=
        (length_of_mem_parses hp').1.trans (length_of_mem_parses hp).1.symm
      rw [hlonger, hlonger, ← not_lt, ← posixLt_iff, posixLt_snoc hlen,
        posixLt_iff, not_lt]
      exact hle
  simp only [regexec, if_true, matchAt, hpick, Option.map_map]
  refine Option.map_congr fun l hl => ?_
  obtain ⟨p, rfl, hp, -⟩ := mem_parses_run.1 (pick_mem hl)
  have hlen := (length_of_mem_parses hp).1
  simp [hlonger, spans_append hlen, spans]

end Ere
