import TickCircuit.Port.Basic
import TickCircuit.Registry.Basic
/-!
Gates. Every gate shows a face with one input and one output; behind it is a transform or a circuit
of further gates. A circuit's inner input is an output seen from inside, and its inner output an
input.
-/
namespace TickCircuit

structure Face where
  /-- For display; at first the name of the type. -/
  name : String
  position : Position
  typeName : String
  input : Port
  output : Port
  /-- What went wrong in the last update, if it failed. -/
  fault : Option Fault

structure Circuit (G : Type) where
  gates : List (GateId × G)
  links : LinkTable
  innerInput : Port
  innerOutput : Port
  /-- The templates from which gates are made. -/
  registry : Registry
  nextGate : GateId

inductive Gate where
  /-- `transform` is missing where its name is not known. -/
  | function (face : Face) (transformName : String) (transform : Option Transform)
  | circuit (face : Face) (interior : Circuit Gate)

def Face.new (typeName : String) (io : Io) : Face :=
  ⟨typeName, .zero, typeName, .new .input io.input, .new .output io.output, none⟩

namespace Circuit

def empty (registry : Registry) : Circuit Gate :=
  ⟨[], .empty, .new .output default, .new .input default, registry, 0⟩

def add (c : Circuit Gate) (g : Gate) : Circuit Gate :=
  { c with gates := Entries.put c.nextGate g c.gates, nextGate := c.nextGate + 1 }

def gate? (c : Circuit Gate) (id : GateId) : Option Gate := Entries.get? id c.gates

def hasGate (c : Circuit Gate) (id : GateId) : Bool := Entries.has id c.gates

def gateIds (c : Circuit Gate) : List GateId := Entries.keys c.gates

def extendRegistry (c : Circuit Gate) (registry : Registry) : Circuit Gate :=
  { c with registry := c.registry.extend registry }

def modifyGate (c : Circuit Gate) (id : GateId) (f : Gate → Gate) : Circuit Gate :=
  { c with gates := Entries.modify id f c.gates }

end Circuit

namespace Gate

/-- The outer ports of a circuit are `any` until its boundary is resolved. -/
def ofCircuit (typeName : String) (c : Circuit Gate) : Gate :=
  .circuit (.new typeName ⟨default, default⟩) c

def ofTransform (typeName : String) (io : Io) (name : String) (t : Option Transform) : Gate :=
  .function (.new typeName io) name t

def face : Gate → Face
  | .function f .. | .circuit f _ => f

def mapFace (f : Face → Face) : Gate → Gate
  | .function face name t => .function (f face) name t
  | .circuit face c => .circuit (f face) c

def input (g : Gate) : Port := g.face.input
def output (g : Gate) : Port := g.face.output

def mapInput (f : Port → Port) (g : Gate) : Gate :=
  g.mapFace fun face => { face with input := f face.input }

def mapOutput (f : Port → Port) (g : Gate) : Gate :=
  g.mapFace fun face => { face with output := f face.output }

def moved (p : Position) (g : Gate) : Gate := g.mapFace fun face => { face with position := p }

def renamed (name : String) (g : Gate) : Gate := g.mapFace fun face => { face with name }

def circuit? : Gate → Except Fault (Circuit Gate)
  | .circuit _ c => .ok c
  | .function face .. => .error (.notACircuit face.name)

def mapInterior (f : Circuit Gate → Circuit Gate) : Gate → Gate
  | .circuit face c => .circuit face (f c)
  | g => g

/-- Passes a click on to the transform; says whether it took notice. -/
def click : Gate → Gate × Bool
  | .function face name (some t) =>
    let (t, noticed) := t.clicked
    (.function face name (some t), noticed)
  | g => (g, false)

def describe : Gate → Option String
  | .function _ name t =>
    some ("FunctionGate \x7b transform_name: " ++ Text.quote name ++ ", loaded: "
      ++ (if t.isSome then "true" else "false") ++ " \x7d")
  | .circuit .. => none

/-- Works on the gate that a path of gate ids leads to, if there is one. -/
def editAt {α : Type} (f : Gate → Gate × α) : List GateId → Gate → Option (Gate × α)
  | [], g => some (f g)
  | id :: path, .circuit face c => do
    let g ← c.gate? id
    let (g, a) ← editAt f path g
    return (.circuit face (c.modifyGate id fun _ => g), a)
  | _ :: _, .function .. => none

end Gate
end TickCircuit
