import TickCircuit.Gate.Wiring
import TickCircuit.Port.Retype
/-!
Types at the boundary. What a circuit takes in and gives out follows from its wiring; outer and
inner ports are retyped together or not at all.
-/
namespace TickCircuit

namespace Circuit

def leafAt (port : Port) (e : Endpoint) : Except Fault Port :=
  (port.sub? e.path).elim (.error (.invalidPath ⟨Path.text e.path, .gone⟩)) .ok

/-- The type that a link carries, the more precise one of its two leaves. -/
def linkType (c : Circuit Gate) (id : LinkId) : Except Fault Interface := do
  let link ← (c.links.get? id).elim (.error (.linkNotFound id)) .ok
  let source ← leafAt (← c.source link.source.node) link.source
  let sink ← leafAt (← c.sink link.sink.node) link.sink
  (source.interface.merge sink.interface).mapError .type

def boundaryTypes (c : Circuit Gate) : Except Fault (Interface × Interface) := do
  let input ← c.innerInput.inferred c.linkType
  let output ← c.innerOutput.inferred c.linkType
  return (input, output)

end Circuit

namespace Gate

def checkBoundary (input output : Interface) (face : Face) (c : Circuit Gate) :
    Except Fault Unit := do
  face.input.checkRetype input
  c.innerInput.checkRetype input
  face.output.checkRetype output
  c.innerOutput.checkRetype output

/-- Retypes the outer and the inner ports, provided that all four can take their new type. -/
def setBoundary (input output : Interface) (g : Gate) : Gate × Except Fault Unit :=
  match g with
  | .function face .. => (g, .error (.notACircuit face.name))
  | .circuit face c =>
    match checkBoundary input output face c with
    | .error e => (g, .error e)
    | .ok () =>
      (.circuit
        { face with input := face.input.retyped input, output := face.output.retyped output }
        { c with
          innerInput := c.innerInput.retyped input
          innerOutput := c.innerOutput.retyped output }, .ok ())

def resolve (g : Gate) : Gate × Except Fault Unit :=
  match g.circuit? >>= Circuit.boundaryTypes with
  | .error e => (g, .error e)
  | .ok (input, output) => g.setBoundary input output

/-- The gate that a change leaves, for a maker of gates who gives up where the change fails. -/
def finished : Gate × Except Fault Unit → Except Fault Gate
  | (g, .ok ()) => .ok g
  | (_, .error e) => .error e

end Gate
end TickCircuit
