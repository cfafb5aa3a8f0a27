import TickCircuit.Description.LinkSpec
import TickCircuit.Gate.Basic
/-!
Descriptions of circuits. Gates are numbered anew in the order in which they are named, and links
carry what they carried last as their literal.
-/
namespace TickCircuit.Circuit

def selected (c : Circuit Gate) (selection : List GateId) : List GateId :=
  (selection.filter (c.hasGate ·)).eraseDups

def numberText (n : Nat) : String := String.ofList (Text.countText n)

/-- An end as a description names it; `none` where it leads out of the selection. -/
def endSpec? (ids : List GateId) (withBoundary : Bool) (e : Endpoint) : Option EndSpec :=
  match e.node with
  | .gate id => (ids.idxOf? id).map fun n => ⟨.gate (numberText n), Path.spec e.path⟩
  | .boundary => if withBoundary then some ⟨.outside, Path.spec e.path⟩ else none
  | .host => none

def linkText? (ids : List GateId) (withBoundary : Bool) (l : Link) : Option String := do
  let source ← endSpec? ids withBoundary l.source
  let sink ← endSpec? ids withBoundary l.sink
  return String.ofList (LinkSpec.text ⟨source, sink, l.last⟩)

def entryOf? (c : Circuit Gate) (id : GateId) (n : Nat) : Option GateEntry :=
  (c.gate? id).map fun g => ⟨numberText n, g.face.typeName, some g.face.position⟩

def describe (c : Circuit Gate) (selection : List GateId) (withBoundary : Bool) : Description :=
  let ids := c.selected selection
  { gates := ids.zipIdx.filterMap fun (id, n) => c.entryOf? id n
    links := c.links.entries.filterMap fun (_, l) => linkText? ids withBoundary l }

def describeAll (c : Circuit Gate) : Description := c.describe c.gateIds true

end TickCircuit.Circuit
