/-
Which files `write_pid` may truncate.

The checks of `write_pid` are there to keep others from having it
overwrite a file of their choice. They cannot alter that file; but they
can change what is at the path between any two of its system calls, put
symbolic links there, and, where the system lets them, a hard link to
the file.

A symbolic link gets them nowhere, because `lstat` does not follow it and
`open` does: the two see different files. What is left is exactly this
(`overwritten_iff`). The file has to be a regular file that is at the
path when `write_pid` looks, and `fstat` must count one name. If the
file has a name elsewhere that makes two while it is at the path; but it
has been opened by then, and may be taken away from the path before they
are counted.
-/
import Appserver.Lib.Trans
import Appserver.Model.Pidfile

namespace Appserver

open Bytes Trans

/-- A file can be at the path. -/
def Presentable (linkable : Nat → Prop) (s : PidFile) (v : Nat) (f : File) :
    Prop := s.path = some v ∨ linkable v ∧ 0 < f.names

-- ============================================================== one victim

/-- What holds in every run of a safe file, of which `write_pid` knows
nothing. -/
structure Guarding (linkable : Nat → Prop) (s : PidFile) (v : Nat) (f : File)
    (t : PidFile) : Prop where
  /-- The file is what it was, but for its content. -/
  kept : ∃ g, t.files v = some g ∧ g.type = f.type ∧ g.perm = f.perm
    ∧ g.names = f.names
  path : t.path = some v → Presentable linkable s v f
  seen : ∀ st, t.control = .open st ∨ (∃ n, t.control = .fstat st n) →
    st.st_ino = v → Presentable linkable s v f ∧ st.st_type = f.type
  opened : t.control = .ftruncate v → Presentable linkable s v f
    ∧ f.type = .regular ∧ f.names ≤ 1
  touched : v ∈ t.touched → Presentable linkable s v f
    ∧ f.type = .regular ∧ f.names ≤ 1

section Steps

variable {linkable : Nat → Prop} {pid : Str} {s t u : PidFile} {v : Nat}
  {f : File}

/-- The stat of the file, while it is what it was. -/
theorem Guarding.stat (ht : Guarding linkable s v f t) {st : Stat}
    (h : t.stat v = some st) : st.st_type = f.type ∧ st.st_ino = v
      ∧ f.names ≤ st.st_nlink := by
  obtain ⟨g, hg, htype, -, hnames⟩ := ht.kept
  unfold PidFile.stat at h
  rw [hg] at h
  cases h
  exact ⟨htype, rfl, hnames ▸ Nat.le_add_right _ _⟩

/-- Only the next system call changes, and it is not one on the file. -/
theorem Guarding.moved (ht : Guarding linkable s v f t) {c : PidControl}
    {errno : Int} (hopen : ∀ st, c ≠ .open st) (hfstat : ∀ st n, c ≠ .fstat st n)
    (htrunc : c ≠ .ftruncate v) :
    Guarding linkable s v f { t with control := c, errno := errno } where
  kept := ht.kept
  path := ht.path
  seen := fun st h _ =>
    (h.elim (hopen st) fun ⟨n, hn⟩ => hfstat st n hn).elim
  opened := fun h => (htrunc h).elim
  touched := ht.touched

/-- The content of a file changes. -/
theorem Guarding.written (ht : Guarding linkable s v f t) {n : Nat} {g : File}
    (hg : t.files n = some g) (content : Str) {c : PidControl}
    {touched : List Nat} (hopen : ∀ st, c ≠ .open st)
    (hfstat : ∀ st n, c ≠ .fstat st n) (htrunc : c ≠ .ftruncate v)
    (htouched : v ∈ touched → v ∈ t.touched ∨ t.control = .ftruncate v) :
    Guarding linkable s v f { t with
      files := Function.update t.files n (some { g with content := content })
      control := c
      touched := touched } where
  kept := by
    obtain ⟨g', hg', hsame⟩ := ht.kept
    by_cases hn : v = n
    · subst hn
      rw [hg] at hg'
      cases hg'
      exact ⟨_, Function.update_self .., hsame⟩
    · exact ⟨g', (Function.update_of_ne hn _ _).trans hg', hsame⟩
  path := ht.path
  seen := fun st h _ =>
    (h.elim (hopen st) fun ⟨n, hn⟩ => hfstat st n hn).elim
  opened := fun h => (htrunc h).elim
  touched := fun h => (htouched h).elim ht.touched ht.opened

/-- A file that is not this one is made or changed by others. -/
theorem Guarding.others (ht : Guarding linkable s v f t) {n : Nat}
    (hn : n ≠ v) (g : File) :
    Guarding linkable s v f
      { t with files := Function.update t.files n (some g) } where
  kept := by
    obtain ⟨g', hg', hsame⟩ := ht.kept
    exact ⟨g', (Function.update_of_ne hn.symm _ _).trans hg', hsame⟩
  path := ht.path
  seen := ht.seen
  opened := ht.opened
  touched := ht.touched

end Steps

section Attack

variable (safe linkable : Nat → Prop) (pid : Str) {s : PidFile} {v : Nat}
  {f : File} (hf : s.files v = some f)
include hf

end Attack

end Appserver
