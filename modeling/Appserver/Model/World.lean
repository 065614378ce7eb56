/-
The world a worker runs in: the symbol table it owns, the record of
everything it has done to the outside, and the outside's replies.

# Replies

memcached, the database, libcurl, the shell, the file system and the
clock are not part of the repository. Each is a function of everything
done so far (`Log`) and of the call's arguments, so a reply may depend
on history in any way and two equal calls may be answered differently.
`regexec` on a pattern a script supplies and the property-tree readers
are functions of their arguments alone.

# Stops

`Stop` tells apart the ways a computation can fail to return: a C++
exception, `log_error` (which ends the process), behaviour the language
leaves undefined, and running out of the fuel the model gives a loop.

Pointers to character data are modelled by the text they point at.
`Owner` records where such a pointer came from; only the ownership
ledger looks at it.
-/
import Appserver.Lib.Prog
import Appserver.Lib.Bytes

namespace Appserver

open Bytes

-- ================================================================ stops

/-- The exceptions the sources throw or let through. -/
inductive Exc
  | memcacheError (rv : Nat)
  | badLexicalCast
  | outOfRange
  | ptreeError
  | runtimeError (what : Str)
  | parserError (file what : Str) (line : Nat)
  deriving DecidableEq

/-- Why a computation did not return. -/
inductive Stop
  | exn (e : Exc)
  | exit
  | undefined
  | diverge
  deriving DecidableEq

-- ============================================================== effects

/-- `slotstate_t`. -/
inductive SlotState
  | free
  | idle
  | busy
  | shutdown
  deriving DecidableEq

/-- Where a character pointer came from: the heap (`strdup`, a
memcached reply) or the buffer of a local `std::string`. -/
inductive Owner
  | heap
  | borrowed
  deriving DecidableEq

/-- The options the sources set with `curl_easy_setopt`. -/
inductive CurlOpt
  | errorBuffer
  | url (s : Str)
  | postFields (s : Str)
  | writeFunction
  | writeData
  | httpHeader (l : List Str)
  | sslCertType (s : Str)
  | sslCert (s : Str)
  | caInfo (s : Str)
  | sslKey (s : Str)
  | keyPasswd (s : Str)
  | mailFrom (s : Str)
  | mailRcpt (l : List Str)
  | readFunction
  | readData
  | upload
  deriving DecidableEq

/-- What a worker does to the world around it, one call each. -/
inductive Effect
  | mcGet (key : Str)
  | mcSet (key val : Str)
  | assignLocal (var val : Str) (own : Owner)
  | resetTable
  | put (text : Str)
  | finish
  | setSlotState (st : SlotState)
  | openFile (name : Str)
  | writeFile (text : Str)
  | query (dbsection statement : Str)
  | popen (command : Str)
  | curlInit
  | curlSetopt (o : CurlOpt)
  | curlPerform (payload : List Str)
  deriving DecidableEq

/-- Everything done so far, oldest first. -/
abbrev Log := List Effect

-- ============================================================ the world

/-- `m_symTable`, and the effects so far. -/
structure World where
  symTable : Str → Option Str
  log : Log

/-- The code that runs in a worker. -/
abbrev Run (α : Type) := Prog World Stop α

/-- Record an effect. -/
def emit (e : Effect) : Run Unit :=
  Prog.modify fun w => { w with log := w.log ++ [e] }

/-- Throw a C++ exception. -/
def throwExc {α : Type} (e : Exc) : Run α := Prog.throw (.exn e)

/-- `catch(...)`: exceptions are handled, other stops are not. -/
def catchAll {α : Type} (y : Run α) : Stop → Option (Run α)
  | .exn _ => some y
  | _ => none

-- ============================================================== replies

/-- The memcached server: what `memcached_get` finds or the code it fails
with, and the code `memcached_set` fails with, if any. -/
structure Memcached where
  get : Log → Str → Except Nat Str
  set : Log → Str → Str → Option Nat

/-- What `regexec` answers on a script's own pattern: the match vector
(one entry per group, `none` where the group did not participate), no
match, or an error. -/
inductive RegReply
  | matched (pmatch : List (Option (Nat × Nat)))
  | noMatch
  | error

/-- `sformat_t`. -/
inductive SFormat
  | unset
  | xml
  | json
  deriving DecidableEq

/-- The configuration tree: `get_optional<std::string>` of a path, and
whether `find` finds a direct child. -/
structure Config where
  get : Str → Option Str
  find : Str → Bool

/-- The outside of a running worker. -/
structure Env where
  cpt : Config
  mc : Memcached
  regexec : Str → Str → RegReply
  /-- `read_json` / `read_xml`, then `get<std::string>(path, "")`. -/
  readTree : SFormat → Str → Option (Str → Str)
  /-- `none` where the database library throws. -/
  query : Log → Str → Str → Option (Option (List (Option Str)))
  openFile : Log → Str → Bool
  /-- The command's whole output, `none` where `popen` fails. -/
  popen : Log → Str → Option Str
  curlInit : Log → Bool
  curlSetopt : Log → CurlOpt → Bool
  /-- The data handed to the write callback, `none` unless `CURLE_OK`. -/
  curlPerform : Log → Option Str
  rfcDate : Log → Str
  uuid : Log → Str

end Appserver
