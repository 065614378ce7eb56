/-
Maps kept as lists of entries in the order of their keys, as
`std::map` walks them.

Assignment replaces the entry of its key or puts a new one in its
place. What a lookup finds behind it needs no order (`lookup_put`),
and where the key is new the entries are the old ones and one more
(`put_perm`); so what a walk comes to, but for the order it goes in,
can be read off the assignments that built the map.

The order itself is `Sorted`, which assignments keep. A sorted map is
settled by what its lookups find (`Sorted.ext`), after a run of
assignments by the last one to each key (`lookup_putAll`); and the
assignments its own entries make build it again (`putAll_self`).
-/
import Mathlib.Data.List.Nodup

namespace OrderedMap

variable {κ ν : Type}

section Order

variable [LT κ]

/-- Entries as a walk meets them, each key behind the one before. -/
def Sorted (l : List (κ × ν)) : Prop :=
  l.Pairwise fun e e' => e.1 < e'.1

/-- Keys in order are different. -/
theorem Sorted.nodup [Std.Irrefl ((· < ·) : κ → κ → Prop)]
    {l : List (κ × ν)} (h : Sorted l) : (l.map Prod.fst).Nodup := by
  refine List.pairwise_map.2 (h.imp ?_)
  intro e e' hlt heq
  rw [heq] at hlt
  exact Std.Irrefl.irrefl _ hlt

end Order

variable [BEq κ]

section Lookup

variable [LawfulBEq κ] {k : κ} {v : ν} {l : List (κ × ν)}

/-- What is found is a key. -/
theorem lookup_isSome : (l.lookup k).isSome ↔ k ∈ l.map Prod.fst := by
  rw [List.lookup_isSome_iff, List.mem_map]
  constructor
  · intro h
    obtain ⟨e, he, hk⟩ := h
    exact ⟨e, he, (eq_of_beq hk).symm⟩
  · intro h
    obtain ⟨e, he, rfl⟩ := h
    exact ⟨e, he, beq_self_eq_true e.1⟩

/-- Where no key has two entries a lookup finds each of them. -/
theorem lookup_of_mem (hnodup : (l.map Prod.fst).Nodup) (h : (k, v) ∈ l) :
    l.lookup k = some v := by
  induction l with
  | nil => cases h
  | cons e l ih =>
      rw [List.map_cons, List.nodup_cons] at hnodup
      rw [List.lookup_cons]
      rcases List.mem_cons.1 h with heq | hmem
      · rw [← heq, beq_self_eq_true]
      · have hne : (k == e.1) = false := by
          refine Bool.eq_false_iff.2 fun hk => hnodup.1 ?_
          rw [← eq_of_beq hk]
          exact List.mem_map_of_mem hmem
        rw [hne]
        exact ih hnodup.2 hmem

/-- Nor does it matter then in which order they stand. -/
theorem lookup_perm {l' : List (κ × ν)} (hnodup : (l.map Prod.fst).Nodup)
    (h : l.Perm l') : l.lookup k = l'.lookup k := by
  cases hk : l'.lookup k with
  | none =>
      rw [List.lookup_eq_none_iff] at hk ⊢
      intro e he
      exact hk e (h.mem_iff.1 he)
  | some v =>
      obtain ⟨u, w, hl', -⟩ := List.lookup_eq_some_iff.1 hk
      refine lookup_of_mem hnodup (h.mem_iff.2 ?_)
      rw [hl']
      exact List.mem_append_right _ List.mem_cons_self

/-- Two maps with the same lookups have the same entries, and there is
one order to list them in. -/
theorem Sorted.ext [LT κ] [Trans ((· < ·) : κ → κ → Prop) (· < ·) (· < ·)]
    [Std.Irrefl ((· < ·) : κ → κ → Prop)] {l' : List (κ × ν)}
    (h : Sorted l) (h' : Sorted l') (heq : ∀ k, l.lookup k = l'.lookup k) :
    l = l' := by
  have hsub : ∀ {m m' : List (κ × ν)}, Sorted m →
      (∀ k, m.lookup k = m'.lookup k) → ∀ e ∈ m, e ∈ m' := by
    intro m m' hm hlook e he
    have hfind : m'.lookup e.1 = some e.2 :=
      (hlook e.1).symm.trans (lookup_of_mem hm.nodup he)
    obtain ⟨u, v, hm', -⟩ := List.lookup_eq_some_iff.1 hfind
    rw [hm']
    exact List.mem_append_right _ List.mem_cons_self
  have hperm : l.Perm l' := by
    refine (List.perm_ext_iff_of_nodup (List.Nodup.of_map _ h.nodup)
      (List.Nodup.of_map _ h'.nodup)).2 fun e => ?_
    exact ⟨hsub h heq e, hsub h' (fun k => (heq k).symm) e⟩
  refine hperm.eq_of_pairwise ?_ h h'
  intro e e' _ _ hlt hgt
  exact absurd (Trans.trans hlt hgt) (Std.Irrefl.irrefl _)

end Lookup

variable [LT κ] [DecidableLT κ]

/-- `m[key] = val`. -/
def put (key : κ) (val : ν) : List (κ × ν) → List (κ × ν)
  | [] => [(key, val)]
  | e :: l =>
      if key == e.1 then (key, val) :: l
      else if key < e.1 then (key, val) :: e :: l
      else e :: put key val l

variable {key k : κ} {val : ν} {l : List (κ × ν)}

/-- A key is looked up behind an assignment. -/
theorem lookup_put [LawfulBEq κ] :
    (put key val l).lookup k = if k == key then some val else l.lookup k := by
  induction l with
  | nil =>
      rw [put, List.lookup_cons]
      split
      next h => rw [if_pos h]
      next h => rw [h, if_neg Bool.false_ne_true]
  | cons e l ih =>
      unfold put
      split
      next he =>
        obtain rfl := eq_of_beq he
        rw [List.lookup_cons, List.lookup_cons]
        cases k == e.1 <;> rfl
      next he =>
        split
        · rw [List.lookup_cons]
          cases k == key <;> rfl
        · rw [List.lookup_cons, List.lookup_cons, ih]
          -- only at its own entry does the walk stop before the new one
          by_cases hk : k = e.1
          · have hne : ¬ (k == key) = true := by
              intro h
              rw [← hk, eq_of_beq h, beq_self_eq_true] at he
              exact he rfl
            rw [if_neg hne, if_neg hne]
          · rw [beq_false_of_ne hk]

/-- What was put in is found. -/
theorem lookup_put_same [LawfulBEq κ] :
    (put key val l).lookup key = some val := by
  rw [lookup_put, beq_self_eq_true, if_pos rfl]

/-- The other keys are not touched. -/
theorem lookup_put_ne [LawfulBEq κ] (h : k ≠ key) :
    (put key val l).lookup k = l.lookup k := by
  rw [lookup_put, beq_false_of_ne h, if_neg Bool.false_ne_true]

/-- A new key comes with a new entry. -/
theorem put_perm (h : l.lookup key = none) :
    (put key val l).Perm ((key, val) :: l) := by
  induction l with
  | nil => exact .refl _
  | cons e l ih =>
      rw [List.lookup_cons] at h
      unfold put
      split
      next he =>
        rw [he] at h
        cases h
      next he =>
        rw [Bool.eq_false_iff.2 he] at h
        split
        · exact .refl _
        · exact ((ih h).cons e).trans (.swap _ _ _)

-- ========================================================== assignments

/-- Assignments, one after another. -/
def putAll (es l : List (κ × ν)) : List (κ × ν) :=
  es.foldl (fun l e => put e.1 e.2 l) l

/-- The last assignment to a key is the one that is looked up. -/
theorem lookup_putAll [LawfulBEq κ] {es : List (κ × ν)} :
    (putAll es l).lookup k = (es.reverse.lookup k).or (l.lookup k) := by
  induction es generalizing l with
  | nil => rfl
  | cons e es ih =>
      rw [putAll, List.foldl_cons]
      show (putAll es (put e.1 e.2 l)).lookup k = _
      rw [ih, lookup_put, List.reverse_cons, List.lookup_append,
        List.lookup_cons, List.lookup_nil]
      by_cases hk : (k == e.1) = true
      · rw [hk, if_pos rfl]
        cases es.reverse.lookup k <;> rfl
      · rw [Bool.eq_false_iff.2 hk, if_neg Bool.false_ne_true]
        cases es.reverse.lookup k <;> rfl

/-- An entry afterwards is the new one or an old one. -/
theorem mem_put {e : κ × ν} (h : e ∈ put key val l) :
    e = (key, val) ∨ e ∈ l := by
  induction l with
  | nil => exact Or.inl (List.mem_singleton.1 h)
  | cons d l ih =>
      unfold put at h
      split at h
      · rcases List.mem_cons.1 h with h | h
        · exact Or.inl h
        · exact Or.inr (List.mem_cons_of_mem _ h)
      · split at h
        · exact List.mem_cons.1 h
        · rcases List.mem_cons.1 h with h | h
          · exact Or.inr (h ▸ List.mem_cons_self)
          · exact (ih h).imp id (List.mem_cons_of_mem _)

section Sorted

variable [Trans ((· < ·) : κ → κ → Prop) (· < ·) (· < ·)]
  [Std.Trichotomous ((· < ·) : κ → κ → Prop)]

/-- The order is kept. -/
theorem put_sorted [LawfulBEq κ] (h : Sorted l) : Sorted (put key val l) := by
  induction l with
  | nil => exact List.pairwise_singleton _ _
  | cons e l ih =>
      obtain ⟨hhead, htail⟩ := List.pairwise_cons.1 h
      unfold put
      split
      next he =>
        rw [← eq_of_beq he] at hhead
        exact List.pairwise_cons.2 ⟨hhead, htail⟩
      next he =>
        split
        next hlt =>
          refine List.pairwise_cons.2 ⟨?_, h⟩
          intro d hd
          rcases List.mem_cons.1 hd with rfl | hd
          · exact hlt
          · exact Trans.trans hlt (hhead d hd)
        next hlt =>
          refine List.pairwise_cons.2 ⟨?_, ih htail⟩
          intro d hd
          rcases mem_put hd with rfl | hd
          · show e.1 < key
            by_contra hge
            have heq : key = e.1 := Std.Trichotomous.trichotomous _ _ hlt hge
            exact he (beq_iff_eq.2 heq)
          · exact hhead d hd

/-- By a whole list of insertions, too. -/
theorem putAll_sorted [LawfulBEq κ] {es : List (κ × ν)} (h : Sorted l) :
    Sorted (putAll es l) := by
  induction es generalizing l with
  | nil => exact h
  | cons e es ih => exact ih (put_sorted h)

/-- A map's own entries, assigned in their order, make the map. -/
theorem putAll_self [LawfulBEq κ] [Std.Irrefl ((· < ·) : κ → κ → Prop)]
    (h : Sorted l) : putAll l [] = l := by
  refine (putAll_sorted List.Pairwise.nil).ext h fun k => ?_
  rw [lookup_putAll, List.lookup_nil, Option.or_none]
  cases hk : l.lookup k with
  | none =>
      rw [List.lookup_eq_none_iff] at hk ⊢
      intro e he
      exact hk e (List.mem_reverse.1 he)
  | some v =>
      obtain ⟨u, w, hl, -⟩ := List.lookup_eq_some_iff.1 hk
      refine lookup_of_mem ?_ ?_
      · rw [List.map_reverse]
        exact List.nodup_reverse.2 h.nodup
      · rw [List.mem_reverse, hl]
        exact List.mem_append_right _ List.mem_cons_self

end Sorted

end OrderedMap
