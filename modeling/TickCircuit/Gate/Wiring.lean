import TickCircuit.Gate.Basic
import TickCircuit.Port.Wiring
/-!
Wiring inside a circuit. A link is made only after both of its ends have been checked; taking away
a gate takes away its links first.
-/
namespace TickCircuit

structure LinkEnd where
  node : Node
  path : PathSpec

namespace Circuit

/-- The port that feeds links from a node: a gate's output, or the inner input. -/
def source (c : Circuit Gate) : Node → Except Fault Port
  | .gate id => (c.gate? id).elim (.error (.gateNotFound id)) fun g => .ok g.output
  | .boundary => .ok c.innerInput
  | .host => .error .hostInside

/-- The port that links to a node feed: a gate's input, or the inner output. -/
def sink (c : Circuit Gate) : Node → Except Fault Port
  | .gate id => (c.gate? id).elim (.error (.gateNotFound id)) fun g => .ok g.input
  | .boundary => .ok c.innerOutput
  | .host => .error .hostInside

def mapSource (c : Circuit Gate) (f : Port → Port) : Node → Circuit Gate
  | .gate id => c.modifyGate id (·.mapOutput f)
  | .boundary => { c with innerInput := f c.innerInput }
  | .host => c

def mapSink (c : Circuit Gate) (f : Port → Port) : Node → Circuit Gate
  | .gate id => c.modifyGate id (·.mapInput f)
  | .boundary => { c with innerOutput := f c.innerOutput }
  | .host => c

def checkLiteral (data : Interface) (literal : Option Value) : Except Fault Unit :=
  literal.elim (.ok ()) fun v => (data.check v).mapError .type

def bindSink (c : Circuit Gate) (id : LinkId) (data : Interface) (end_ : LinkEnd) :
    Circuit Gate × Except Fault Path :=
  match c.sink end_.node with
  | .error e => (c, .error e)
  | .ok port =>
    let (port, path) := port.connect id end_.path data
    (c.mapSink (fun _ => port) end_.node, path)

def bindSource (c : Circuit Gate) (id : LinkId) (node : Node) (path : Path) :
    Circuit Gate × Except Fault Unit :=
  match c.source node with
  | .error e => (c, .error e)
  | .ok port =>
    let (port, bound) := port.attach path id
    (c.mapSource (fun _ => port) node, bound)

/-- Makes a link that has carried `literal` so far. A refused link leaves all as it was, but for
the id that was set aside for it. -/
def connect (c : Circuit Gate) (start end_ : LinkEnd) (literal : Option Value) :
    Circuit Gate × Except Fault LinkId :=
  match c.source start.node >>= (·.resolve start.path) with
  | .error e => (c, .error e)
  | .ok leaf =>
    match checkLiteral leaf.interface literal with
    | .error e => (c, .error e)
    | .ok () =>
      let id := c.links.nextId
      let c := { c with links := c.links.reserve }
      match c.bindSink id leaf.interface end_ with
      | (c, .error e) => (c, .error e)
      | (c, .ok path) =>
        match c.bindSource id start.node leaf.path with
        | (c, .error e) => (c.mapSink (·.detach path id) end_.node, .error e)
        | (c, .ok ()) =>
          let link := Link.seeded ⟨start.node, leaf.path⟩ ⟨end_.node, path⟩ leaf.interface literal
          ({ c with links := c.links.put id link }, .ok id)

def deleteLink (c : Circuit Gate) (id : LinkId) : Circuit Gate :=
  match c.links.get? id with
  | none => c
  | some link =>
    let c := { c with links := c.links.erase id }
    let c := c.mapSource (·.detach link.source.path id) link.source.node
    c.mapSink (·.detach link.sink.path id) link.sink.node

/-- Takes a link away, and says whether there was one. -/
def takeLink (c : Circuit Gate) (id : LinkId) : Circuit Gate × Bool :=
  match c.links.get? id with
  | none => (c, false)
  | some _ => (c.deleteLink id, true)

def deleteLinks (c : Circuit Gate) (ids : List LinkId) : Circuit Gate := ids.foldl deleteLink c

/-- Takes a link away; there has to be one. -/
def removeLink (c : Circuit Gate) (id : LinkId) : Circuit Gate × Except Fault Unit :=
  (c.deleteLink id, if c.links.has id then .ok () else .error (.linkNotFound id))

def removeGate (c : Circuit Gate) (id : GateId) : Circuit Gate × Except Fault Gate :=
  match c.gate? id with
  | none => (c, .error (.gateNotFound id))
  | some g =>
    let c := c.deleteLinks (g.input.allLinks ++ g.output.allLinks)
    ({ c with gates := Entries.erase id c.gates },
      (c.gate? id).elim (.error (.gateNotFound id)) .ok)

def click (c : Circuit Gate) (id : GateId) : Circuit Gate × Except Fault Bool :=
  match c.gate? id with
  | none => (c, .error (.gateNotFound id))
  | some g => (c.modifyGate id fun _ => g.click.1, .ok g.click.2)

end Circuit
end TickCircuit
