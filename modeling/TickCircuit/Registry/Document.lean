import TickCircuit.Description.Document
import TickCircuit.Interface.Document
import TickCircuit.Registry.Basic
/-!
Registries as documents: templates by name. Of two templates with one name the last counts, in the
place of the first.
-/
namespace TickCircuit
open Json Decoder

def Io.encode (io : Io) : Tree :=
  .object [("input", io.input.encode), ("output", io.output.encode)]

def Io.decode : Decoder Io
  | .object ms => do
    let (input, output) ← members (fun (input, output) key v =>
      match key with
      | "input" => (some ·, output) <$> once "input" input Interface.decode v
      | "output" => (input, some ·) <$> once "output" output Interface.decode v
      | _ => skip (input, output) v) (none, none) ms
    return ⟨input.getD default, output.getD default⟩
  | .list items => do
    let (input, items) ← field (.ok default) Interface.decode items
    let (output, items) ← field (.ok default) Interface.decode items
    finish items
    return ⟨input, output⟩
  | other => .error (other.mismatch "struct Io")

def Template.encode (t : Template) : Tree :=
  .object ([("io", t.io.encode)] ++ t.transform.elim [] (fun name => [("transform", .text name)])
    ++ t.circuit.elim [] fun d => [("circuit", d.encode)])

def Template.decode : Decoder Template
  | .object ms => do
    let (io, transform, circuit) ← members (fun (io, transform, circuit) key v =>
      match key with
      | "io" => (some ·, transform, circuit) <$> once "io" io Io.decode v
      | "transform" => (io, some ·, circuit) <$> once "transform" transform (optional text) v
      | "circuit" =>
        (io, transform, some ·) <$> once "circuit" circuit (optional Description.decode) v
      | _ => skip (io, transform, circuit) v) (none, none, none) ms
    return ⟨← require "io" io, transform.getD none, circuit.getD none⟩
  | .list items => do
    let (io, items) ← field (tooShort 0 "GateTemplate" 3) Io.decode items
    let (transform, items) ← field (.ok none) (optional text) items
    let (circuit, items) ← field (.ok none) (optional Description.decode) items
    finish items
    return ⟨io, transform, circuit⟩
  | other => .error (other.mismatch "struct GateTemplate")

namespace Registry

def toText (r : Registry) : String :=
  (Tree.object (r.templates.map fun (name, t) => (name, t.encode))).pretty

/-- Every template is checked for its one body, in order. -/
def ofText (text : String) : Except Fault Registry := do
  let entries ← (document (map Template.decode) text).mapError .document
  let templates := Entries.putAll [] entries
  templates.forM fun (name, t) => do
    let _ ← t.body name
  return ⟨templates, []⟩

end Registry
end TickCircuit
