/-
Updates with keys: what their order does to the result, and what they
leave of a table.

Where updates with different keys commute, a list of them can be sorted
by key without changing what it does (`foldl_gather`), so the result
depends only on what the updates of each key do together
(`foldl_eq_of_keys`). How the keys are interleaved does not matter, and
two lists of updates need not even be permutations of each other.

`Moves R` is the frame of a step on a table: an entry keeps its value
or takes one that `R` has for it. Steps compose (`Moves.trans`), so the
frame of a run is that of its steps together.
-/
import Mathlib.Data.List.Basic
import Mathlib.Logic.Function.Basic

namespace Updates

variable {σ α κ : Type} {f : σ → α → σ} {key : α → κ}

/-- Updates with different keys commute, in any state. -/
def Apart (f : σ → α → σ) (key : α → κ) (l : List α) : Prop :=
  ∀ a ∈ l, ∀ b ∈ l, key a ≠ key b → ∀ s, f (f s a) b = f (f s b) a

/-- What holds of more updates holds of fewer. -/
theorem Apart.mono {l l' : List α} (h : Apart f key l) (hsub : l' ⊆ l) :
    Apart f key l' := fun a ha b hb => h a (hsub ha) b (hsub hb)

/-- An update passes those of another key. -/
theorem foldl_pass {a : α} :
    ∀ {l : List α} {s : σ}, (∀ b ∈ l, ∀ s, f (f s a) b = f (f s b) a) →
      l.foldl f (f s a) = f (l.foldl f s) a := by
  intro l
  induction l with
  | nil => intro s _; rfl
  | cons b l ih =>
      intro s h
      rw [List.foldl_cons, List.foldl_cons, h b List.mem_cons_self]
      exact ih fun c hc => h c (List.mem_cons_of_mem _ hc)

/-- Updates that do nothing here. -/
theorem foldl_fixed {s : σ} {l : List α} (h : ∀ a ∈ l, f s a = s) :
    l.foldl f s = s := by
  induction l with
  | nil => rfl
  | cons a l ih =>
      rw [List.foldl_cons, h a List.mem_cons_self]
      exact ih fun b hb => h b (List.mem_cons_of_mem _ hb)

/-- What only one update can bring about holds before, or the update is
made. -/
theorem foldl_gains (P : σ → Prop) {a : α}
    (hstep : ∀ s b, P (f s b) → P s ∨ b = a) :
    ∀ {l : List α} {s : σ}, P (l.foldl f s) → P s ∨ a ∈ l := by
  intro l
  induction l with
  | nil => exact Or.inl
  | cons b l ih =>
      intro s h
      rcases ih h with h | h
      · rcases hstep s b h with h | rfl
        · exact Or.inl h
        · exact Or.inr List.mem_cons_self
      · exact Or.inr (List.mem_cons_of_mem _ h)

section Keys

variable [DecidableEq κ]

/-- The updates of one key. -/
def own (key : α → κ) (k : κ) (l : List α) : List α :=
  l.filter fun a => key a = k

/-- The updates of the other keys. -/
def others (key : α → κ) (k : κ) (l : List α) : List α :=
  l.filter fun a => key a ≠ k

section Parts

variable {k k' : κ} {l : List α} {a : α}

/-- An update of the key comes first among its own. -/
theorem own_cons_self (h : key a = k) : own key k (a :: l) = a :: own key k l :=
  List.filter_cons_of_pos (by simpa using h)

/-- One of another key is none of its own. -/
theorem own_cons_of_ne (h : key a ≠ k) : own key k (a :: l) = own key k l :=
  List.filter_cons_of_neg (by simpa using h)

/-- An update of the key is none of the others. -/
theorem others_cons_self (h : key a = k) :
    others key k (a :: l) = others key k l :=
  List.filter_cons_of_neg (by simpa using h)

/-- One of another key is. -/
theorem others_cons_of_ne (h : key a ≠ k) :
    others key k (a :: l) = a :: others key k l :=
  List.filter_cons_of_pos (by simpa using h)

/-- The updates of a key. -/
theorem mem_own : a ∈ own key k l ↔ a ∈ l ∧ key a = k := by
  rw [own, List.mem_filter, decide_eq_true_iff]

/-- The updates of the other keys. -/
theorem mem_others : a ∈ others key k l ↔ a ∈ l ∧ key a ≠ k := by
  rw [others, List.mem_filter, decide_eq_true_iff]

/-- None of the others is of the key. -/
theorem own_others_self : own key k (others key k l) = [] := by
  rw [own, List.filter_eq_nil_iff]
  intro a ha
  rw [decide_eq_true_iff]
  exact (mem_others.1 ha).2

/-- Those of another key are all still there. -/
theorem own_others_of_ne (h : k' ≠ k) :
    own key k' (others key k l) = own key k' l := by
  rw [own, others, List.filter_filter]
  refine List.filter_congr fun a _ => ?_
  by_cases ha : key a = k'
  · simp [ha, h]
  · simp [ha]

end Parts

/-- The updates of a key can be made first. -/
theorem foldl_gather (k : κ) :
    ∀ {l : List α} {s : σ}, Apart f key l →
      l.foldl f s = (others key k l).foldl f ((own key k l).foldl f s) := by
  intro l
  induction l with
  | nil => intro s _; rfl
  | cons a l ih =>
      intro s h
      have hrest := h.mono (List.subset_cons_self a l)
      by_cases ha : key a = k
      · rw [own_cons_self ha, others_cons_self ha, List.foldl_cons,
          List.foldl_cons]
        exact ih hrest
      · rw [own_cons_of_ne ha, others_cons_of_ne ha, List.foldl_cons,
          List.foldl_cons, ih hrest, foldl_pass]
        intro b hb s
        obtain ⟨hmem, hkey⟩ := List.mem_filter.1 hb
        refine h a List.mem_cons_self b (List.mem_cons_of_mem _ hmem) ?_ s
        rw [decide_eq_true_iff] at hkey
        rw [hkey]
        exact ha

/-- What every update keeps holds in the end. -/
theorem foldl_keeps {P : σ → Prop} (hP : ∀ s a, P s → P (f s a)) :
    ∀ {l : List α} {s : σ}, P s → P (l.foldl f s) := by
  intro l
  induction l with
  | nil => exact fun h => h
  | cons a l ih => exact fun h => ih (hP _ a h)

/-- Two lists of updates that do the same at each key do the same. What
each key's do need only agree in states of a kind the updates keep. -/
theorem foldl_eq_of_keys {P : σ → Prop} (hP : ∀ s a, P s → P (f s a))
    {l l' : List α} (h : Apart f key l) (h' : Apart f key l')
    (hkeys : ∀ k s, P s → (own key k l).foldl f s = (own key k l').foldl f s)
    {s : σ} (hs : P s) : l.foldl f s = l'.foldl f s := by
  -- the keys that occur are dealt with one by one
  have hall : ∀ (ks : List κ) (l l' : List α), Apart f key l →
      Apart f key l' → (∀ a ∈ l ++ l', key a ∈ ks) →
      (∀ k s, P s → (own key k l).foldl f s = (own key k l').foldl f s) →
      ∀ s, P s → l.foldl f s = l'.foldl f s := by
    intro ks
    induction ks with
    | nil =>
        intro l l' _ _ hmem _ s _
        have hnil : l ++ l' = [] :=
          List.eq_nil_iff_forall_not_mem.2 fun a ha => by
            simpa using hmem a ha
        obtain ⟨rfl, rfl⟩ := List.append_eq_nil_iff.1 hnil
        rfl
    | cons k ks ih =>
        intro l l' h h' hmem hkeys s hs
        rw [foldl_gather k h, foldl_gather k h', hkeys k s hs]
        apply ih
        · exact h.mono fun a ha => (mem_others.1 ha).1
        · exact h'.mono fun a ha => (mem_others.1 ha).1
        · intro a ha
          rw [List.mem_append, mem_others, mem_others, ← or_and_right,
            ← List.mem_append] at ha
          exact (List.mem_cons.1 (hmem a ha.1)).resolve_left ha.2
        · intro k' s hs
          by_cases hk : k' = k
          · rw [hk, own_others_self, own_others_self]
          · rw [own_others_of_ne hk, own_others_of_ne hk, hkeys k' s hs]
        · exact foldl_keeps hP hs
  exact hall ((l ++ l').map key) l l' h h'
    (fun a ha => List.mem_map_of_mem ha) hkeys s hs

end Keys

-- ================================================================ frames

/-- From one table to the other every entry keeps its value or takes one
that `R` has for it. -/
def Moves {ν : Type} (R : κ → ν → Prop) (t t' : κ → Option ν) : Prop :=
  ∀ x, t' x = t x ∨ ∃ v, t' x = some v ∧ R x v

section Moves

variable {ν : Type} {R R' : κ → ν → Prop} {t t' t'' : κ → Option ν}

/-- Nothing has moved. -/
theorem Moves.of_eq (h : ∀ x, t' x = t x) : Moves R t t' :=
  fun x => Or.inl (h x)

/-- More may be allowed to be stored. -/
theorem Moves.mono (h : Moves R t t') (hR : ∀ x v, R x v → R' x v) :
    Moves R' t t' := fun x =>
  (h x).imp_right fun ⟨v, hv, hx⟩ => ⟨v, hv, hR x v hx⟩

/-- One change after another. -/
theorem Moves.trans (h : Moves R t t') (h' : Moves R t' t'') :
    Moves R t t'' := by
  intro x
  rcases h' x with heq | hnew
  · rw [heq]
    exact h x
  · exact Or.inr hnew

/-- An entry that `R` has nothing for keeps its value. -/
theorem Moves.kept (h : Moves R t t') {x : κ} (hx : ∀ v, ¬ R x v) :
    t' x = t x :=
  (h x).resolve_right fun ⟨v, _, hv⟩ => hx v hv

end Moves

/-- One entry is set to what it may be set to. -/
theorem Moves.update {ν : Type} [DecidableEq κ] {R : κ → ν → Prop} {x : κ}
    {v : ν} (h : R x v) (t : κ → Option ν) :
    Moves R t (Function.update t x (some v)) := by
  intro y
  by_cases hy : y = x
  · subst hy
    exact Or.inr ⟨v, Function.update_self .., h⟩
  · exact Or.inl (Function.update_of_ne hy ..)

end Updates
