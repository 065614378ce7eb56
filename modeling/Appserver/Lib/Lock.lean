/-
A lock that one party at a time holds.

`Guards lock holds` says that the lock's owner is whoever stands where
only the owner may stand. It goes through every change one party can
make (`Guards.take`, `Guards.release`, `Guards.gone`), so a system keeps
it if its steps are such changes; exclusion follows from it
(`Guards.exclusive`).
-/
import Mathlib.Logic.Function.Basic

namespace Lock

variable {ι : Type} {lock : Option ι} {holds holds' : ι → Prop} {i j : ι}

/-- Those who hold the lock are the one it belongs to. -/
def Guards (lock : Option ι) (holds : ι → Prop) : Prop :=
  ∀ i, lock = some i ↔ holds i

/-- No two hold it. -/
theorem Guards.exclusive (h : Guards lock holds) (hi : holds i)
    (hj : holds j) : i = j :=
  Option.some.inj (((h i).2 hi).symm.trans ((h j).2 hj))

/-- While it is free, nobody holds it. -/
theorem Guards.nobody (h : Guards none holds) (i : ι) : ¬ holds i :=
  fun hi => nomatch (h i).2 hi

/-- Who holds the lock is all that counts. -/
theorem Guards.congr (h : Guards lock holds) (heq : ∀ j, holds' j ↔ holds j) :
    Guards lock holds' := fun j => (h j).trans (heq j).symm

/-- Somebody takes it. -/
theorem Guards.take (h : Guards none holds) (hi : holds' i)
    (hrest : ∀ j, j ≠ i → (holds' j ↔ holds j)) : Guards (some i) holds' := by
  intro j
  constructor
  · intro heq
    exact Option.some.inj heq ▸ hi
  · intro hj
    by_cases hji : j = i
    · rw [hji]
    · exact absurd ((hrest j hji).1 hj) (h.nobody j)

/-- Its owner lets go of it. -/
theorem Guards.release (h : Guards lock holds) (hi : holds i)
    (hi' : ¬ holds' i) (hrest : ∀ j, j ≠ i → (holds' j ↔ holds j)) :
    Guards none holds' := by
  intro j
  refine iff_of_false nofun fun hj => ?_
  by_cases hji : j = i
  · exact hi' (hji ▸ hj)
  · exact hji (h.exclusive ((hrest j hji).1 hj) hi)

/-- Somebody is gone, who may have held it. -/
theorem Guards.gone [DecidableEq ι] (h : Guards lock holds)
    (hi' : ¬ holds' i) (hrest : ∀ j, j ≠ i → (holds' j ↔ holds j)) :
    Guards (if lock = some i then none else lock) holds' := by
  by_cases hlock : lock = some i
  · rw [if_pos hlock]
    exact h.release ((h i).1 hlock) hi' hrest
  · rw [if_neg hlock]
    intro j
    by_cases hji : j = i
    · exact iff_of_false (hji ▸ hlock) (hji ▸ hi')
    · exact (h j).trans (hrest j hji).symm

end Lock
