/-
The blocks of memory behind the symbol table.

Everywhere else in the model a value stands for the pointer the sources
pass around. Here the pointers are back: `Ledger` numbers the blocks of
character data, says of each whether it is on the heap, the buffer of a
local `std::string`, or gone, and keeps `m_symTable` as a map from names
to block numbers.

The four functions of `CAssigner` that touch the table are written over
the ledger; `Effect.onLedger` says which of them each recorded effect
was, and with which block: the set-up code and `assign` hand over what
`strdup`, `memcached_get` or `getPropositional` allocated, the http and
shell states the `c_str()` of a string on their own stack. Blocks that
never reach the table (the copies `evaluate` makes and frees) have no
number.

`Op` lists what can happen to the table between two looks at it; a local
string dies when the operation that borrowed from it returns.
-/
import Appserver.Lib.Blocks
import Appserver.Model.Request

namespace Appserver

open Bytes Blocks

/-- The blocks, and the table as a map from names to blocks. -/
abbrev Ledger := Store Str Str

-- ============================================================ the blocks

/-- The mark of a new block, by where its pointer came from. -/
def Owner.mark : Owner → Mark
  | .heap => .owned
  | .borrowed => .borrowed

/-- `CAssigner::assignLocal`, on the block it is given: the block the
variable had is freed, the new one taken over. -/
def Ledger.assignLocal (L : Ledger) (var : Str) (val : Nat) : Ledger :=
  L.put var val

/-- `CAssigner::assignGlobal`: the block is freed once memcached has
accepted it, and lost where it throws. -/
def Ledger.assignGlobal (L : Ledger) (accepted : Bool) (val : Nat) : Ledger :=
  if accepted then L.free val else L

/-- `CAssigner::resetTable`. -/
def Ledger.resetTable (L : Ledger) : Ledger := L.clear

-- =========================================================== the effects

/-- What an effect does to the blocks. -/
def Effect.onLedger (mc : Memcached) (l : Log) (L : Ledger) :
    Effect → Ledger
  | .assignLocal var val own =>
      Ledger.assignLocal (L.alloc own.mark val) var L.fresh
  | .mcSet key val =>
      Ledger.assignGlobal (L.alloc .owned val) (mc.set l key val).isNone
        L.fresh
  | .resetTable => Ledger.resetTable L
  | _ => L

/-- The ledger after some effects. -/
def Ledger.replay (mc : Memcached) : Log → Ledger → Log → Ledger
  | _, L, [] => L
  | l, L, e :: es => Ledger.replay mc (l ++ [e]) (e.onLedger mc l L) es

-- ======================================================== the operations

/-- What happens to the table, one call each. -/
inductive Op
  | setUp (ind : Indeterminate) (q : Str) (rq : Request)
  | execute (st : CState) (self : Results)
  | assign (a : AssignmentList) (view : StateView)
  | resetTable

/-- The code behind an operation. -/
def Op.code (env : Env) : Op → Run Unit
  | .setUp ind q rq => do
      storeParams ind q
      storeEnvironment ind rq
  | .execute st self => (fun _ => ()) <$> st.execute env self
  | .assign a view => Appserver.assign env.mc a view
  | .resetTable => Appserver.resetTable

/-- The worker's world, and the ledger beside it. -/
structure Memory where
  world : World
  ledger : Ledger

/-- A worker that has just connected. -/
def Memory.start : Memory := ⟨⟨fun _ => none, []⟩, Store.empty⟩

/-- The memory after an operation, however the operation ended. -/
def Op.after (env : Env) (s : Memory) (op : Op) : Memory :=
  let w := ((op.code env).run s.world).2
  ⟨w, (s.ledger.replay env.mc s.world.log
    (w.log.drop s.world.log.length)).expire⟩

/-- The memory after a sequence of operations. -/
def Memory.after (env : Env) (s : Memory) (ops : List Op) : Memory :=
  ops.foldl (Op.after env) s

end Appserver
