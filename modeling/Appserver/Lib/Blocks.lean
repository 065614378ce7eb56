/-
A table whose entries own blocks of memory.

Blocks are numbered in the order they come into being and are never
reused, so a block's number says for good which block is meant. `put`
hands a block over to the table and frees the one it displaces; `clear`
frees every block the table holds. Freeing anything but a live block of
one's own is a fault and is written down, so that a run without faults
is a run without a double or a foreign free.

`Owned` is the protocol: every entry has a live block of its own. It
survives `put` as long as what is handed over is a live block no entry
has (`Owned.put`), and no longer (`not_owned_put`).
-/
import Mathlib.Data.List.Nodup
import Mathlib.Data.List.Lookmap

namespace Blocks

/-- What is known of a block: ours to free, somebody else's, or gone. -/
inductive Mark
  | owned
  | borrowed
  | released
  deriving DecidableEq

/-- The blocks, the table into them, and the faults so far. -/
structure Store (κ α : Type) where
  blocks : List (Mark × α)
  table : List (κ × Nat)
  faults : List Nat

variable {κ α : Type}

-- ======================================================== the operations

namespace Store

/-- Nothing yet. -/
def empty : Store κ α := ⟨[], [], []⟩

/-- The number the next block will have. -/
def fresh (s : Store κ α) : Nat := s.blocks.length

/-- A new block. -/
def alloc (s : Store κ α) (m : Mark) (a : α) : Store κ α :=
  { s with blocks := s.blocks ++ [(m, a)] }

/-- The state of a block. -/
def mark (s : Store κ α) (i : Nat) : Option Mark := s.blocks[i]?.map Prod.fst

/-- Release a block. -/
def free (s : Store κ α) (i : Nat) : Store κ α :=
  if s.mark i = some .owned then
    { s with blocks := s.blocks.modify i fun b => (.released, b.2) }
  else { s with faults := s.faults ++ [i] }

/-- Release some blocks, one after the other. -/
def freeAll (s : Store κ α) (is : List Nat) : Store κ α := is.foldl free s

/-- The owners of the borrowed blocks go away. -/
def expire (s : Store κ α) : Store κ α :=
  { s with blocks := s.blocks.map fun b =>
      (if b.1 = .borrowed then .released else b.1, b.2) }

variable [DecidableEq κ]

/-- The block of a key. -/
def find (s : Store κ α) (k : κ) : Option Nat := s.table.lookup k

/-- Hand a block over to the table, under a key. -/
def put (s : Store κ α) (k : κ) (i : Nat) : Store κ α :=
  let s := match s.find k with
    | some j => s.free j
    | none => s
  { s with table := (k, i) :: s.table.filter fun e => e.1 ≠ k }

/-- Empty the table. -/
def clear (s : Store κ α) : Store κ α :=
  { s.freeAll (s.table.map Prod.snd) with table := [] }

/-- What is read under a key: nothing, where the block is not live. -/
def read (s : Store κ α) (k : κ) : Option α :=
  match s.find k with
  | none => none
  | some i => match s.blocks[i]? with
    | some (.owned, a) => some a
    | _ => none

end Store

-- ====================================================== what they change

namespace Store

/-- Freeing a block does not touch the table. -/
@[simp] theorem free_table (s : Store κ α) (i : Nat) :
    (s.free i).table = s.table := by
  unfold free
  split <;> rfl

/-- A marked block was handed out before. -/
theorem mark_lt {s : Store κ α} {i : Nat} {m : Mark}
    (h : s.mark i = some m) : i < s.fresh := by
  obtain ⟨b, hb, -⟩ := Option.map_eq_some_iff.1 h
  exact (List.getElem?_eq_some_iff.1 hb).1

/-- Allocating leaves the older blocks alone. -/
theorem alloc_get {s : Store κ α} {m : Mark} {a : α} {i : Nat}
    (h : i < s.fresh) : (s.alloc m a).blocks[i]? = s.blocks[i]? :=
  List.getElem?_append_left h

/-- The new block is the one that was fresh. -/
@[simp] theorem alloc_get_fresh (s : Store κ α) (m : Mark) (a : α) :
    (s.alloc m a).blocks[s.fresh]? = some (m, a) := by
  simp [alloc, fresh]

/-- Freeing leaves the other blocks alone. -/
theorem free_get {s : Store κ α} {i j : Nat} (h : j ≠ i) :
    (s.free i).blocks[j]? = s.blocks[j]? := by
  unfold free
  split
  · simp [Ne.symm h]
  · rfl

/-- Freeing an owned block is no fault. -/
theorem free_faults {s : Store κ α} {i : Nat} (h : s.mark i = some .owned) :
    (s.free i).faults = s.faults := by
  rw [free, if_pos h]

/-- Distinct live blocks are freed without a fault. -/
theorem freeAll_faults {s : Store κ α} {is : List Nat} (hnodup : is.Nodup)
    (h : ∀ i ∈ is, s.mark i = some .owned) :
    (s.freeAll is).faults = s.faults := by
  induction is generalizing s with
  | nil => rfl
  | cons i is ih =>
      obtain ⟨hi, hnodup⟩ := List.nodup_cons.1 hnodup
      refine (ih (s := s.free i) hnodup fun j hj => ?_).trans
        (free_faults (h i List.mem_cons_self))
      have hne : j ≠ i := fun hji => hi (hji ▸ hj)
      rw [mark, free_get hne]
      exact h j (List.mem_cons_of_mem _ hj)

end Store

-- ========================================================== the protocol

/-- Every entry has a live block of its own, and nothing was freed that
should not have been. -/
structure Owned (s : Store κ α) : Prop where
  live : ∀ e ∈ s.table, s.mark e.2 = some .owned
  distinct : (s.table.map Prod.snd).Nodup
  keys : (s.table.map Prod.fst).Nodup
  sound : s.faults = []

/-- The empty table owns all it points to. -/
theorem owned_empty : Owned (Store.empty : Store κ α) :=
  ⟨by simp [Store.empty], by simp [Store.empty], by simp [Store.empty], rfl⟩

section Protocol

variable {s : Store κ α}

/-- A block nobody refers to yet makes no difference. -/
theorem Owned.alloc (h : Owned s) (m : Mark) (a : α) : Owned (s.alloc m a) where
  live e he := by
    have hmark := h.live e he
    rw [Store.mark, Store.alloc_get (Store.mark_lt hmark)]
    exact hmark
  distinct := h.distinct
  keys := h.keys
  sound := h.sound

/-- Freeing a live block that no entry refers to. -/
theorem Owned.free (h : Owned s) {i : Nat} (hi : s.mark i = some .owned)
    (hfree : i ∉ s.table.map Prod.snd) : Owned (s.free i) where
  live e he := by
    rw [Store.free_table] at he
    have hne : e.2 ≠ i := fun hei =>
      hfree (hei ▸ List.mem_map_of_mem he)
    rw [Store.mark, Store.free_get hne]
    exact h.live e he
  distinct := by rw [Store.free_table]; exact h.distinct
  keys := by rw [Store.free_table]; exact h.keys
  sound := by rw [Store.free_faults hi]; exact h.sound

/-- Clearing such a table frees each of its blocks once. -/
theorem Owned.clear [DecidableEq κ] (h : Owned s) : Owned s.clear where
  live e he := by cases he
  distinct := .nil
  keys := .nil
  sound := by
    refine (Store.freeAll_faults h.distinct fun i hi => ?_).trans h.sound
    obtain ⟨e, he, rfl⟩ := List.mem_map.1 hi
    exact h.live e he

/-- Borrowed blocks are nothing the protocol counts on. -/
theorem mark_expire (s : Store κ α) (i : Nat) :
    s.expire.mark i = some .owned ↔ s.mark i = some .owned := by
  unfold Store.mark Store.expire
  rw [List.getElem?_map]
  cases s.blocks[i]? with
  | none => rfl
  | some b => rcases b with ⟨m, a⟩; cases m <;> simp

/-- The end of borrowed buffers is no concern of a table that owns its
blocks. -/
theorem owned_expire : Owned s.expire ↔ Owned s :=
  ⟨fun h => ⟨fun e he => (mark_expire s e.2).1 (h.live e he), h.distinct,
      h.keys, h.sound⟩,
    fun h => ⟨fun e he => (mark_expire s e.2).2 (h.live e he), h.distinct,
      h.keys, h.sound⟩⟩

variable [DecidableEq κ]

/-- The table of `put`, with the displaced block named. -/
theorem put_eq (s : Store κ α) (k : κ) (i : Nat) :
    (s.put k i).table = (k, i) :: s.table.filter fun e => e.1 ≠ k := by
  unfold Store.put
  cases s.find k with
  | none => rfl
  | some j => simp only [Store.free_table]

/-- An entry that is found is in the table. -/
theorem mem_of_find {k : κ} {i : Nat} (h : s.find k = some i) :
    (k, i) ∈ s.table := by
  obtain ⟨l₁, l₂, hl, -⟩ := List.lookup_eq_some_iff.1 h
  rw [hl]
  simp

/-- What an entry other than `k`'s refers to is not the block `k` gives
up. -/
theorem ne_of_find (h : Owned s) {k : κ} {j : Nat} (hj : s.find k = some j)
    {e : κ × Nat} (he : e ∈ s.table) (hne : e.1 ≠ k) : e.2 ≠ j := by
  intro hej
  have hinj := List.inj_on_of_nodup_map h.distinct he (mem_of_find hj) hej
  exact hne (congrArg Prod.fst hinj)

/-- Blocks that `put` leaves as they are. -/
theorem put_get {k : κ} {i j : Nat} (h : s.find k ≠ some j) :
    (s.put k i).blocks[j]? = s.blocks[j]? := by
  unfold Store.put
  cases hfind : s.find k with
  | none => rfl
  | some j' =>
      exact Store.free_get fun hj => h (by rw [hfind, hj])

/-- Handing over a live block no entry has keeps the protocol. -/
theorem Owned.put (h : Owned s) {k : κ} {i : Nat}
    (hi : s.mark i = some .owned) (hfresh : i ∉ s.table.map Prod.snd) :
    Owned (s.put k i) := by
  have hfind : s.find k ≠ some i := fun hk =>
    hfresh (List.mem_map_of_mem (mem_of_find hk))
  refine ⟨?_, ?_, ?_, ?_⟩
  · intro e he
    rw [put_eq] at he
    rcases List.mem_cons.1 he with rfl | he
    · rw [Store.mark, put_get hfind]
      exact hi
    · obtain ⟨he, hne⟩ := List.mem_filter.1 he
      have hne : e.1 ≠ k := by simpa using hne
      rw [Store.mark, put_get fun hk => ne_of_find h hk he hne rfl]
      exact h.live e he
  · rw [put_eq, List.map_cons, List.nodup_cons]
    refine ⟨fun hin => hfresh ?_, h.distinct.sublist ?_⟩
    · exact (List.filter_sublist.map Prod.snd).subset hin
    · exact List.filter_sublist.map Prod.snd
  · rw [put_eq, List.map_cons, List.nodup_cons]
    refine ⟨fun hin => ?_, h.keys.sublist (List.filter_sublist.map Prod.fst)⟩
    obtain ⟨e, he, hek⟩ := List.mem_map.1 hin
    exact absurd hek (by simpa using (List.mem_filter.1 he).2)
  · unfold Store.put
    cases hk : s.find k with
    | none => exact h.sound
    | some j =>
        exact (Store.free_faults (h.live _ (mem_of_find hk))).trans h.sound

/-- Handing over a block that is not ours breaks it. -/
theorem not_owned_put {k : κ} {i : Nat} (hi : s.mark i ≠ some .owned) :
    ¬ Owned (s.put k i) := by
  intro h
  have hlive := h.live (k, i) (by rw [put_eq]; exact List.mem_cons_self)
  refine hi ?_
  unfold Store.put at hlive
  cases hk : s.find k with
  | none => rw [hk] at hlive; exact hlive
  | some j =>
      rw [hk] at hlive
      change (s.free j).mark i = some .owned at hlive
      unfold Store.free at hlive
      split at hlive
      next hj =>
        by_cases hij : i = j
        · rw [hij]; exact hj
        · simpa [Store.mark, List.getElem?_modify, Ne.symm hij] using hlive
      · exact hlive

/-- Dropping the entries of one key keeps those of the others. -/
theorem lookup_filter_ne {l : List (κ × Nat)} {k x : κ} (hx : x ≠ k) :
    (l.filter fun e => e.1 ≠ k).lookup x = l.lookup x := by
  induction l with
  | nil => rfl
  | cons e l ih =>
      rw [List.filter_cons]
      by_cases he : e.1 = k
      · rw [if_neg (by simpa using he), ih, List.lookup_cons,
          beq_eq_false_iff_ne.2 fun hxe => hx (hxe.trans he)]
      · rw [if_pos (by simpa using he), List.lookup_cons, List.lookup_cons, ih]

/-- Reading back what was put, and what was not touched. -/
theorem read_put (h : Owned s) {k : κ} {i : Nat} {a : α}
    (hi : s.blocks[i]? = some (.owned, a))
    (hfresh : i ∉ s.table.map Prod.snd) (x : κ) :
    (s.put k i).read x = if x = k then some a else s.read x := by
  have hfind : ∀ y, s.find y ≠ some i := fun y hy =>
    hfresh (List.mem_map_of_mem (mem_of_find hy))
  have htable : (s.put k i).find x = if x = k then some i else s.find x := by
    unfold Store.find
    rw [put_eq, List.lookup_cons]
    by_cases hx : x = k
    · simp [hx]
    · rw [if_neg hx, beq_eq_false_iff_ne.2 hx]
      exact lookup_filter_ne hx
  unfold Store.read
  rw [htable]
  by_cases hx : x = k
  · rw [if_pos hx, if_pos hx]
    simp only [put_get (hfind k), hi]
  · rw [if_neg hx, if_neg hx]
    cases hj : s.find x with
    | none => rfl
    | some j =>
        have hne : s.find k ≠ some j := fun hk =>
          ne_of_find h hk (mem_of_find hj) hx rfl
        simp only [put_get hne]

/-- What the table holds outlives the borrowed buffers. -/
theorem read_expire (s : Store κ α) (x : κ) : s.expire.read x = s.read x := by
  unfold Store.read
  rw [show s.expire.find x = s.find x from rfl]
  cases s.find x with
  | none => rfl
  | some i =>
      simp only [Store.expire, List.getElem?_map]
      cases s.blocks[i]? with
      | none => rfl
      | some b => rcases b with ⟨m, a⟩; cases m <;> rfl

/-- A cleared table holds nothing. -/
theorem read_clear (s : Store κ α) (x : κ) : s.clear.read x = none := rfl

/-- Allocating changes nothing that is read. -/
theorem read_alloc (h : Owned s) (m : Mark) (a : α) (x : κ) :
    (s.alloc m a).read x = s.read x := by
  unfold Store.read
  rw [show (s.alloc m a).find x = s.find x from rfl]
  cases hj : s.find x with
  | none => rfl
  | some j =>
      simp only [Store.alloc_get (Store.mark_lt (h.live _ (mem_of_find hj)))]

/-- Freeing a block no entry points to changes nothing that is read. -/
theorem read_free {i : Nat} (hfree : i ∉ s.table.map Prod.snd)
    (x : κ) : (s.free i).read x = s.read x := by
  unfold Store.read
  rw [show (s.free i).find x = s.find x by
    unfold Store.find; rw [Store.free_table]]
  cases hj : s.find x with
  | none => rfl
  | some j =>
      have hne : j ≠ i := fun hji =>
        hfree (hji ▸ List.mem_map_of_mem (mem_of_find hj))
      simp only [Store.free_get hne]

end Protocol

end Blocks
