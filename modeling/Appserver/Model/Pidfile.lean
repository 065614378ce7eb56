/-
`write_pid` among others who use the file system.

One action is one system call, of `write_pid` or of somebody else.

# The files

A file goes by its number, which stands for device and inode. There is
one name that everybody can change, that of the pid file (`path`); the
names a file has elsewhere are counted. The number of a file that has
lost its last name is not given to another one, but nothing leads to it
any more unless it is open.

# What is outside

What the others do. They may put a file that has a name elsewhere under
the path, and take away what is there; and they may do anything to the
files that are theirs (`alter`), which includes making new ones and
leaving another file under the same number. Which system calls fail, and
how much `write` writes, is not determined either. Further names that
the others give to a file only make `st_nlink` larger, and are left out.
-/
import Appserver.Model.Main

namespace Appserver

open Bytes

-- ================================================================= files

/-- The type in `st_mode`. -/
inductive FileType
  | regular
  | symlink
  | directory
  | special
  deriving DecidableEq

/-- A file. -/
structure File where
  type : FileType
  /-- The rest of `st_mode`. -/
  perm : Nat
  /-- Where following a symbolic link ends. -/
  target : Option Nat
  /-- The number of its names elsewhere. -/
  names : Nat
  content : Str

/-- `struct stat`, as far as it is looked at. -/
structure Stat where
  st_type : FileType
  st_perm : Nat
  st_ino : Nat
  st_nlink : Nat
  deriving DecidableEq

/-- A file just created with mode 0600. -/
def File.empty : File := ⟨.regular, 0o600, none, 0, []⟩

-- =============================================================== control

/-- The system call `write_pid` makes next. -/
inductive PidControl
  | lstat
  | create
  | open (lstatInfo : Stat)
  | fstat (lstatInfo : Stat) (file : Nat)
  | ftruncate (file : Nat)
  | write (file : Nat)
  | close (file : Nat)
  | returned (rv : Int)
  /-- `log_error` has been called. -/
  | exited

/-- The file system while `write_pid` runs. -/
structure PidFile where
  files : Nat → Option File
  path : Option Nat
  control : PidControl
  errno : Int
  /-- The files `write_pid` has truncated, which is no variable of the
  source. -/
  touched : List Nat

/-- `stat` of a file. -/
def PidFile.stat (s : PidFile) (n : Nat) : Option Stat :=
  (s.files n).map fun f =>
    ⟨f.type, f.perm, n, f.names + (if s.path = some n then 1 else 0)⟩

/-- The file that opening the path leads to, through symbolic links. -/
def PidFile.resolve (s : PidFile) : Option Nat :=
  match s.path with
  | none => none
  | some n => match s.files n with
    | none => none
    | some f => match f.type, f.target with
      -- A link leads to its target when that has a name and is no link.
      | .symlink, some m => match s.files m with
        | some g => if g.type ≠ .symlink ∧ 0 < g.names then some m else none
        | none => none
      | .symlink, none => none
      | _, _ => some n

-- =============================================================== actions

/-- What can happen next. -/
inductive PidAct
  | lstat
  | create (n : Nat)
  | open
  | fstat
  | ftruncate
  | write (k : Nat)
  | close
  /-- The call fails. -/
  | fail (errno : Int)
  | link (n : Nat)
  | unlink
  | alter (n : Nat) (f : File)

/-- `lstat(pidfile, &lstatInfo)`, where it finds the file or finds that
there is none. -/
def PidFile.lstat (s : PidFile) : Option PidFile :=
  match s.control with
  | .lstat => match s.path with
    | none => some { s with errno := ENOENT, control := .create }
    | some n => (s.stat n).map fun lstatInfo =>
        { s with control := .open lstatInfo }
  | _ => none

/-- `open(pidfile, O_CREAT | O_EXCL | O_RDWR, 0600)`, where it creates a
file. -/
def PidFile.create (s : PidFile) (n : Nat) : Option PidFile :=
  match s.control with
  | .create =>
      -- `O_EXCL`: neither a file nor a link may stand there.
      if s.path = none ∧ (s.files n).isNone then
        some { s with
          files := Function.update s.files n (some .empty)
          path := some n
          control := .ftruncate n }
      else none
  | _ => none

/-- `open(pidfile, O_RDWR)`, where it opens a file, which cannot be a
directory. -/
def PidFile.open (s : PidFile) : Option PidFile :=
  match s.control with
  | .open lstatInfo => match s.resolve with
    | some n =>
        if (s.files n).any (·.type ≠ .directory) then
          some { s with control := .fstat lstatInfo n }
        else none
    | none => none
  | _ => none

/-- What `write_pid` asks of the file it has opened. -/
def sameFile (lstatInfo fstatInfo : Stat) : Bool :=
  !(lstatInfo.st_type ≠ fstatInfo.st_type ∨ lstatInfo.st_perm ≠ fstatInfo.st_perm
      ∨ lstatInfo.st_ino ≠ fstatInfo.st_ino)
    && !(1 < fstatInfo.st_nlink ∨ lstatInfo.st_type ≠ .regular)

/-- `fstat(file, &fstatInfo)`, and the checks. -/
def PidFile.fstat (s : PidFile) : Option PidFile :=
  match s.control with
  | .fstat lstatInfo n => (s.stat n).map fun fstatInfo => { s with
      control := if sameFile lstatInfo fstatInfo then .ftruncate n
        else .exited }
  | _ => none

/-- `ftruncate(file, 0)`. -/
def PidFile.ftruncate (s : PidFile) : Option PidFile :=
  match s.control with
  | .ftruncate n => (s.files n).map fun f => { s with
      files := Function.update s.files n (some { f with content := [] })
      touched := s.touched ++ [n]
      control := .write n }
  | _ => none

/-- `write(file, pid, strlen(pid))`, where it writes `k` bytes. -/
def PidFile.write (pid : Str) (s : PidFile) (k : Nat) : Option PidFile :=
  match s.control with
  | .write n => match s.files n with
    | some f =>
        if k ≤ pid.length then
          some { s with
            files := Function.update s.files n
              (some { f with content := pid.take k ++ f.content.drop k })
            -- A short write is an error, and leaves `errno` as it was.
            control := if k = pid.length then .close n
              else .returned s.errno }
        else none
    | none => none
  | _ => none

/-- `close(file)`. -/
def PidFile.close (s : PidFile) : Option PidFile :=
  match s.control with
  | .close _ => some { s with control := .returned 0 }
  | _ => none

/-- What a call that fails leads to. -/
def PidControl.failed (errno : Int) : PidControl → Option PidControl
  -- `ENOENT` is no failure here but the other branch.
  | .lstat => if errno = ENOENT then none else some .exited
  | .create => some (.returned errno)
  | .open _ => some .exited
  | .fstat _ _ => some .exited
  | .ftruncate _ => some (.returned errno)
  | .write _ => some (.returned errno)
  | .close _ => some (.returned (-1))
  | .returned _ => none
  | .exited => none

/-- Somebody puts a file under the path. -/
def PidFile.link (s : PidFile) (n : Nat) : Option PidFile :=
  match s.files n with
  | some f =>
      if s.path = none ∧ 0 < f.names ∧ f.type ≠ .directory then
        some { s with path := some n }
      else none
  | none => none

/-- The system after an action, where the action can be taken. -/
def PidFile.step (pid : Str) (s : PidFile) : PidAct → Option PidFile
  | .lstat => s.lstat
  | .create n => s.create n
  | .open => s.open
  | .fstat => s.fstat
  | .ftruncate => s.ftruncate
  | .write k => s.write pid k
  | .close => s.close
  | .fail errno =>
      (s.control.failed errno).map fun c =>
        { s with control := c, errno := errno }
  | .link n => s.link n
  | .unlink => some { s with path := none }
  | .alter n f => some { s with files := Function.update s.files n (some f) }

end Appserver
