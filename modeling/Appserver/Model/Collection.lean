/-
The pattern library: `CRegexCollection`, filled from a file and dumped
to a stream.

The loader reads with `fgets` into a buffer of 512 bytes, of which a
call is told one less and fills again one less, 510. What it takes for
a line is therefore a buffer: the text up to the next newline, or 510
bytes where none comes sooner, and of that what a C string shows.
`count` numbers the buffers.

The collection is a `std::map`, so its entries stand in the order of
their names; that order comes with the structure.
-/
import Appserver.Lib.OrderedMap
import Appserver.Model.Script

namespace Appserver

open Bytes

-- ================================================================= data

/-- What the class throws: `std::invalid_argument` and
`std::runtime_error`. -/
inductive RegexFailure
  | invalidArgument (what : Str)
  | runtimeError (what : Str)
  deriving DecidableEq

/-- `m_regmap`: names and patterns; a compiled pattern is kept as its
text, from which `regcomp` made it. -/
@[ext] structure CRegexCollection where
  regmap : List (Str × Str)
  sorted : OrderedMap.Sorted regmap
  deriving DecidableEq

/-- `CRegexCollection()`. -/
def CRegexCollection.init : CRegexCollection := ⟨[], List.Pairwise.nil⟩

/-- `m_regmap[name] = …`. -/
def CRegexCollection.put (c : CRegexCollection) (e : Str × Str) :
    CRegexCollection :=
  ⟨OrderedMap.put e.1 e.2 c.regmap, OrderedMap.put_sorted c.sorted⟩

-- ============================================================== reading

/-- What `fgets(buf, n + 1, fd)` puts into the buffer, and what is left
of the file. -/
def fgets : Nat → Str → Str × Str
  | 0, s => ([], s)
  | _ + 1, [] => ([], [])
  | n + 1, b :: s =>
      if b == ch '\n' then ([b], s) else (b :: (fgets n s).1, (fgets n s).2)

/-- What one call has room for: `sizeof(buf) - 1`, less the NUL. -/
def bufRoom : Nat := 512 - 1 - 1

/-- The buffers of one call after another, until one comes back with
nothing. Each takes a byte at least, so the length of the file is fuel
enough. -/
def fgetsLoop : Nat → Str → List Str
  | 0, _ => []
  | fuel + 1, s =>
      if s.isEmpty then []
      else (fgets bufRoom s).1 :: fgetsLoop fuel (fgets bufRoom s).2

def buffers (content : Str) : List Str := fgetsLoop content.length content

section Fill

variable (regcomp : Str → Option Str) (regfile : Str)

/-- `new CRegex(reg, REG_EXTENDED)`. -/
def newCRegex (reg : Str) : Except RegexFailure Str :=
  match regcomp reg with
  | none => .ok reg
  | some err => .error (.runtimeError (str "regcomp error: " ++ err))

/-- A definition, split at its first equals sign. -/
def fillEntry (count : Nat) (c : CRegexCollection) (line : Str) :
    Except RegexFailure CRegexCollection :=
  match breakAt (ch '=') line with
  | none => .error (.runtimeError
      (regfile ++ str ": format error, line: " ++ decimal count))
  | some (name, reg) => do
      let rex ← newCRegex regcomp reg
      .ok (c.put (name, rex))

/-- One buffer: the body of the loop. -/
def fillStep (count : Nat) (c : CRegexCollection) (buf : Str) :
    Except RegexFailure CRegexCollection :=
  let text := cstr buf
  if text.head? == some (ch '#') then .ok c
  -- Only an empty line is blank here, one of spaces is not.
  else if text.head? == some (ch '\n') then .ok c
  else
    match rfindByte (ch '\n') text with
    -- A buffer that was filled up has no newline in it.
    | none => .error (.runtimeError
        (regfile ++ str ": no end-of-line, line: " ++ decimal count))
    | some eol => fillEntry regcomp regfile count c (text.take eol)

/-- The loop. -/
def fillLoop (count : Nat) (c : CRegexCollection) :
    List Str → Except RegexFailure CRegexCollection
  | [] => .ok c
  | buf :: bufs => do
      let c ← fillStep regcomp regfile (count + 1) c buf
      fillLoop (count + 1) c bufs

/-- `fill`: `content` is the file's text, `none` where it cannot be
opened. -/
def CRegexCollection.fill (c : CRegexCollection) (content : Option Str) :
    Except RegexFailure CRegexCollection :=
  match content with
  | none => .error (.invalidArgument (regfile ++ str ": can not read!"))
  | some text => fillLoop regcomp regfile 0 c (buffers text)

end Fill

-- ============================================================== dumping

/-- `operator<<`. -/
def CRegexCollection.dump (c : CRegexCollection) : Str :=
  c.regmap.flatMap fun e => e.1 ++ ch '=' :: e.2 ++ [ch '\n']

end Appserver
