import TickCircuit.Fault
/-!
Link texts `from/path=>to/path:literal`. The literal seeds the link; an end is a gate id or
`outside`, the boundary of the circuit.
-/
namespace TickCircuit
open Text

inductive GateRef where
  | outside
  | gate (id : String)
deriving DecidableEq

def outsideName : List Char := ['o', 'u', 't', 's', 'i', 'd', 'e']

def GateRef.text : GateRef → List Char
  | .outside => outsideName
  | .gate id => id.toList

structure EndSpec where
  gate : GateRef
  path : PathSpec
deriving DecidableEq

structure LinkSpec where
  source : EndSpec
  sink : EndSpec
  literal : Option Value
deriving DecidableEq

def EndSpec.text (e : EndSpec) : List Char :=
  if e.path = [] then e.gate.text else e.gate.text ++ '/' :: e.path.text

def LinkSpec.text (s : LinkSpec) : List Char :=
  s.source.text ++ ['=', '>'] ++ s.sink.text ++ s.literal.elim [] (':' :: ·.print)

/-- The first slash ends the gate id. -/
def EndSpec.parse (link text : List Char) : Except Fault EndSpec :=
  let (gate, path) := (splitOnce ['/'] text).getD (text, [])
  if trim gate = [] then .error (.malformedLink (String.ofList link) .noGate)
  else
    match PathSpec.parse path with
    | .error e => .error (.invalidPath e)
    | .ok path =>
      .ok ⟨if trim gate = outsideName then .outside else .gate (String.ofList (trim gate)), path⟩

/-- The first colon after the arrow begins the literal, which is read before the ends. -/
def LinkSpec.parse (text : List Char) : Except Fault LinkSpec := do
  let (source, rest) ← (splitOnce ['=', '>'] text).elim
    (.error (.malformedLink (String.ofList text) .noArrow)) .ok
  let (sink, literal) ← match splitOnce [':'] rest with
    | none => .ok (rest, none)
    | some (sink, literal) =>
      match parseLiteral literal with
      | .error e => .error (.grammar e)
      | .ok v => .ok (sink, v)
  let source ← EndSpec.parse text source
  let sink ← EndSpec.parse text sink
  return ⟨source, sink, literal⟩

end TickCircuit
