import TickCircuit.Description.Basic
import TickCircuit.Fault
import TickCircuit.Text.Quoted
import TickCircuit.Transform.Builtin
/-!
Templates of gates by type name, and transforms that are added to the built-in ones. A template
has one body, a transform or a circuit.
-/
namespace TickCircuit
open Text

structure Io where
  input : Interface
  output : Interface
deriving DecidableEq

/-- As a document may write it: either body may be there or not. -/
structure Template where
  io : Io
  transform : Option String
  circuit : Option Description
deriving DecidableEq

inductive Body where
  | transform (name : String)
  | circuit (description : Description)

namespace Template

def ofTransform (io : Io) (name : String) : Template := ⟨io, some name, none⟩

def ofCircuit (io : Io) (description : Description) : Template := ⟨io, none, some description⟩

/-- The body, if there is exactly one; `name` is the template's own, for the fault. -/
def body (t : Template) (name : String) : Except Fault Body :=
  match t.transform, t.circuit with
  | some transform, none => .ok (.transform transform)
  | none, some description => .ok (.circuit description)
  | _, _ => .error (.ambiguousTemplate name)

end Template

structure Registry where
  templates : Entries String Template
  /-- Transforms that go before built-in ones of the same name. -/
  natives : Entries String Transform

namespace Registry

def empty : Registry := ⟨[], []⟩

def insert (r : Registry) (name : String) (t : Template) : Registry :=
  { r with templates := r.templates.put name t }

/-- Templates and transforms of `other` replace those of the same name. -/
def extend (r other : Registry) : Registry :=
  ⟨r.templates.putAll other.templates, r.natives.putAll other.natives⟩

def register (r : Registry) (name : String) (t : Transform) : Registry :=
  { r with natives := r.natives.put name t }

def transform? (r : Registry) (name : String) : Option Transform :=
  (r.natives.get? name).orElse fun _ => Builtin.find? name

def quotedNames {α : Type} (es : Entries String α) : String :=
  "[" ++ ", ".intercalate (es.keys.map quote) ++ "]"

def describe (r : Registry) : String :=
  "TemplateRegistry \x7b templates: " ++ quotedNames r.templates ++ ", natives: "
    ++ quotedNames r.natives ++ " \x7d"

end Registry
end TickCircuit
