import TickCircuit.Interface.Merge
import TickCircuit.Json.Flaw
import TickCircuit.Link
import TickCircuit.Transform.Basic
/-!
What can go wrong with a circuit, by cause. Every cause belongs to one of four categories.
-/
namespace TickCircuit
open Text

inductive LinkFlaw where
  | noArrow
  | noGate
deriving DecidableEq

def LinkFlaw.message : LinkFlaw → String
  | .noArrow => "expected `<from>=><to>`"
  | .noGate => "endpoint is missing a gate id"

inductive Fault where
  | unknownGateType (name : String)
  | ambiguousTemplate (name : String)
  | grammar (error : Grammar.ParseError)
  | recursiveTemplate (chain : List String)
  | malformedLink (link : String) (flaw : LinkFlaw)
  | unknownGateId (id : String)
  | document (flaw : Json.Flaw)
  | interfaceMismatch (port data : Interface)
  | type (fault : TypeFault)
  | inputOccupied (path : Path)
  | invalidPath (error : PathError)
  | gateNotFound (id : GateId)
  | linkNotFound (id : LinkId)
  | hostInside
  | inputWritten
  | notExpandable (interface : Interface)
  | orphanedLinks (interface : Interface) (index : Nat)
  | notACircuit (gate : String)
  | notLoaded (transform : String)
  | transform (fault : TransformFault)
  | missingOutput (interface : Interface)
deriving DecidableEq

inductive Category where
  | configuration
  | typeMismatch
  | connectivity
  | evaluation
deriving DecidableEq

def Fault.category : Fault → Category
  | .unknownGateType _ | .ambiguousTemplate _ | .grammar _ | .recursiveTemplate _
  | .malformedLink .. | .unknownGateId _ | .document _ => .configuration
  | .interfaceMismatch .. | .type _ => .typeMismatch
  | .inputOccupied _ | .invalidPath _ | .gateNotFound _ | .linkNotFound _ | .hostInside
  | .inputWritten | .notExpandable _ | .orphanedLinks .. | .notACircuit _ => .connectivity
  | .notLoaded _ | .transform _ | .missingOutput _ => .evaluation

def Fault.message : Fault → String
  | .unknownGateType name => "no gate template named `" ++ name ++ "`"
  | .ambiguousTemplate name =>
    "invalid template `" ++ name ++ "`: exactly one of `transform` or `circuit` must be set"
  | .grammar e => e.message
  | .recursiveTemplate chain =>
    "template chain " ++ " -> ".intercalate chain ++ " instantiates itself"
  | .malformedLink link flaw => "malformed link `" ++ link ++ "`: " ++ flaw.message
  | .unknownGateId id => "description references unknown gate id `" ++ id ++ "`"
  | .document .malformed => "invalid document: not well formed"
  | .document (.shape flaw) => "invalid document: " ++ flaw.message
  | .interfaceMismatch port data =>
    "port of type `" ++ port.text ++ "` cannot carry `" ++ data.text ++ "`"
  | .type fault => fault.message
  | .inputOccupied path => "input `" ++ String.ofList path.text ++ "` already has a link"
  | .invalidPath e =>
    "invalid port path `" ++ String.ofList e.path ++ "`: " ++ e.flaw.message
  | .gateNotFound id => "gate not found: gate#" ++ id.repr
  | .linkNotFound id => "link not found: link#" ++ id.repr
  | .hostInside => "host endpoints cannot be wired inside a circuit"
  | .inputWritten => "the value of an input port cannot be set"
  | .notExpandable i => "a port of type `" ++ i.text ++ "` cannot grow sub-ports"
  | .orphanedLinks i index =>
    "retyping to `" ++ i.text ++ "` would drop linked sub-port " ++ index.repr
  | .notACircuit gate => "gate `" ++ gate ++ "` is not a circuit"
  | .notLoaded name => "transform `" ++ name ++ "` is not loaded"
  | .transform fault => fault.message
  | .missingOutput i => "transform produced no value for a `" ++ i.text ++ "` output"

end TickCircuit
