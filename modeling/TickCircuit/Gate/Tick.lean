import TickCircuit.Gate.Basic
import TickCircuit.Port.Signal
/-!
One tick. A circuit takes its outer input in, updates every gate once, then every link once, and
gives its inner output out. Gates read what links carried before the tick, so cycles settle one
step at a time. A gate whose update fails keeps the fault until an update succeeds.
-/
namespace TickCircuit
namespace Gate

def withFault (face : Face) (result : Except Fault Unit) : Face :=
  match result with
  | .ok () => { face with fault := none }
  | .error e => { face with fault := some e }

/-- What the input of a gate reads; a `none` input is not read at all. -/
def readInput (face : Face) (t : LinkTable) : Except Fault (Option Value) :=
  if face.input.interface.isNone then .ok none else face.input.read t

/-- Writes what a transform yields, unless the output carries no data. -/
def writeOutput (face : Face) (v : Option Value) (t : LinkTable) : LinkTable × Except Fault Unit :=
  if face.output.interface.isNone then (t, .ok ())
  else
    match v with
    | none => (t, .error (.missingOutput face.output.interface))
    | some v => face.output.write v t

def applyTransform (face : Face) (name : String) (transform : Option Transform) (t : LinkTable) :
    Option Transform × LinkTable × Except Fault Unit :=
  match readInput face t, transform with
  | .error e, _ => (transform, t, .error e)
  | .ok _, none => (none, t, .error (.notLoaded name))
  | .ok v, some f =>
    match f.run v with
    | (f, .error e) => (some f, t, .error (.transform e))
    | (f, .ok v) => (some f, writeOutput face v t)

/-- Passes a value on between a port read in one table and a port written in another, unless the
port to be written carries no data or there is no value. -/
def pass (value : Except Fault (Option Value)) (target : Port) (t : LinkTable) :
    LinkTable × Except Fault Unit :=
  match value with
  | .error e => (t, .error e)
  | .ok none => (t, .ok ())
  | .ok (some v) => target.write v t

mutual
def update (outer : LinkTable) : Gate → Gate × LinkTable
  | .function face name transform =>
    let (transform, outer, result) := applyTransform face name transform outer
    (.function (withFault face result) name transform, outer)
  | .circuit face ⟨gates, links, innerInput, innerOutput, registry, nextGate⟩ =>
    let pushed :=
      if innerInput.interface.isNone then (links, .ok ())
      else pass (face.input.read outer) innerInput links
    match pushed with
    | (links, .error e) =>
      (.circuit (withFault face (.error e))
        ⟨gates, links, innerInput, innerOutput, registry, nextGate⟩, outer)
    | (links, .ok ()) =>
      let (gates, links) := updateAll links gates
      let links := links.updateAll
      let (outer, result) :=
        if face.output.interface.isNone then (outer, .ok ())
        else pass (innerOutput.read links) face.output outer
      (.circuit (withFault face result)
        ⟨gates, links, innerInput, innerOutput, registry, nextGate⟩, outer)
def updateAll (links : LinkTable) : List (GateId × Gate) → List (GateId × Gate) × LinkTable
  | [] => ([], links)
  | (id, g) :: gs =>
    let (g, links) := g.update links
    let (gs, links) := updateAll links gs
    ((id, g) :: gs, links)
end

end Gate
end TickCircuit
