import TickCircuit.Entries
import TickCircuit.Path
import TickCircuit.Value.Basic
/-!
Links carry a value from one port leaf to another with a delay of one tick: sources write `current`
and sinks read `last`, which catches up when the link itself is updated.

Ids and ticks are counted in 64 bits where circuits run. Here they are natural numbers: fewer than
`2 ^ 64` gates, links and ticks are counted.
-/
namespace TickCircuit

abbrev GateId := Nat
abbrev LinkId := Nat

/-- What an end of a link is attached to: a gate, the boundary of the circuit, or the host. -/
inductive Node where
  | gate (id : GateId)
  | boundary
  | host
deriving DecidableEq

structure Endpoint where
  node : Node
  path : Path
deriving DecidableEq

structure Link where
  source : Endpoint
  sink : Endpoint
  /-- The interface of the source leaf when the link was made. -/
  data : Interface
  current : Option Value
  last : Option Value
deriving DecidableEq

/-- A link as if it had carried `value` last tick. -/
def Link.seeded (source sink : Endpoint) (data : Interface) (value : Option Value) : Link :=
  ⟨source, sink, data, value, value⟩

def Link.update (l : Link) : Link := { l with last := l.current }

/-- Links in the order in which they were made; ids are never given twice. -/
@[ext]
structure LinkTable where
  entries : Entries LinkId Link
  nextId : LinkId

namespace LinkTable

def empty : LinkTable := ⟨[], 0⟩

def ids (t : LinkTable) : List LinkId := t.entries.keys

def get? (t : LinkTable) (id : LinkId) : Option Link := t.entries.get? id

def has (t : LinkTable) (id : LinkId) : Bool := t.entries.has id

def reserve (t : LinkTable) : LinkTable := { t with nextId := t.nextId + 1 }

def put (t : LinkTable) (id : LinkId) (l : Link) : LinkTable :=
  { t with entries := t.entries.put id l }

def erase (t : LinkTable) (id : LinkId) : LinkTable := { t with entries := t.entries.erase id }

def modify (t : LinkTable) (id : LinkId) (f : Link → Link) : LinkTable :=
  { t with entries := t.entries.modify id f }

def write (t : LinkTable) (id : LinkId) (v : Value) : LinkTable :=
  t.modify id fun l => { l with current := some v }

def update (t : LinkTable) (id : LinkId) : LinkTable := t.modify id Link.update

def updateAll (t : LinkTable) : LinkTable :=
  { t with entries := t.entries.map fun (id, l) => (id, l.update) }

theorem ids_write (t : LinkTable) (id : LinkId) (v : Value) : (t.write id v).ids = t.ids :=
  Entries.keys_modify _ _ _

end LinkTable
end TickCircuit
