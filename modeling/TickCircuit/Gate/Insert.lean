import TickCircuit.Description.Document
import TickCircuit.Gate.Boundary
/-!
Inserting a description into a circuit: first all of its gates, then its links. If a step fails,
what was made so far is taken away again and the boundary is as before.
-/
namespace TickCircuit

/-- What an insertion has made so far, and the boundary before it. -/
structure Insertion where
  gates : Entries String GateId
  links : List LinkId
  innerInput : Port
  innerOutput : Port

namespace Circuit

def insertGates (make : String → Except Fault Gate) (offset : Position) (c : Circuit Gate)
    (made : Insertion) : List GateEntry → Circuit Gate × Insertion × Except Fault Unit
  | [] => (c, made, .ok ())
  | entry :: entries =>
    match make entry.typeName with
    | .error e => (c, made, .error e)
    | .ok g =>
      let g := g.moved ((entry.position.getD .zero).add offset)
      insertGates make offset (c.add g)
        { made with gates := made.gates.put entry.id c.nextGate } entries

def linkEnd (made : Insertion) (e : EndSpec) : Except Fault LinkEnd :=
  match e.gate with
  | .outside => .ok ⟨.boundary, e.path⟩
  | .gate id =>
    (made.gates.get? id).elim (.error (.unknownGateId id)) fun g => .ok ⟨.gate g, e.path⟩

def insertLink (c : Circuit Gate) (made : Insertion) (spec : LinkSpec) :
    Circuit Gate × Except Fault LinkId :=
  match linkEnd made spec.source, linkEnd made spec.sink with
  | .error e, _ | _, .error e => (c, .error e)
  | .ok start, .ok end_ => c.connect start end_ spec.literal

def insertLinks (c : Circuit Gate) (made : Insertion) :
    List LinkSpec → Circuit Gate × Insertion × Except Fault Unit
  | [] => (c, made, .ok ())
  | spec :: specs =>
    match c.insertLink made spec with
    | (c, .error e) => (c, made, .error e)
    | (c, .ok id) => insertLinks c { made with links := made.links ++ [id] } specs

def insertParts (make : String → Except Fault Gate) (d : Description) (offset : Position)
    (c : Circuit Gate) (made : Insertion) : Circuit Gate × Insertion × Except Fault Unit :=
  match c.insertGates make offset made d.gates with
  | (c, made, .error e) => (c, made, .error e)
  | (c, made, .ok ()) =>
    match d.specs with
    | .error e => (c, made, .error e)
    | .ok specs => c.insertLinks made specs

def rollback (c : Circuit Gate) (made : Insertion) : Circuit Gate :=
  let c := c.deleteLinks made.links
  let c := made.gates.foldl (fun c (_, id) => (c.removeGate id).1) c
  { c with innerInput := made.innerInput, innerOutput := made.innerOutput }

/-- Inserts a description, with `make` to make a gate of a type. -/
def insert (make : String → Except Fault Gate) (d : Description) (offset : Position)
    (c : Circuit Gate) : Circuit Gate × Except Fault Insertion :=
  match c.insertParts make d offset ⟨[], [], c.innerInput, c.innerOutput⟩ with
  | (c, made, .ok ()) => (c, .ok made)
  | (c, made, .error e) => (c.rollback made, .error e)

end Circuit
end TickCircuit
