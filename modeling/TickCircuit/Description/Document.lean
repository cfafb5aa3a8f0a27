import TickCircuit.Description.Basic
import TickCircuit.Description.LinkSpec
import TickCircuit.Json.Decode
import TickCircuit.Json.Tree
/-!
Descriptions as documents. Gates and links may be left out, and links may go by the name of
connections.
-/
namespace TickCircuit
open Json Decoder

def Position.encode (p : Position) : Tree := .object [("x", .number p.x), ("y", .number p.y)]

def Position.decode : Decoder Position
  | .object ms => do
    let (x, y) ← members (fun (x, y) key v =>
      match key with
      | "x" => (some ·, y) <$> once "x" x float v
      | "y" => (x, some ·) <$> once "y" y float v
      | _ => skip (x, y) v) (none, none) ms
    return ⟨← require "x" x, ← require "y" y⟩
  | .list items => do
    let (x, items) ← field (tooShort 0 "Position" 2) float items
    let (y, items) ← field (tooShort 1 "Position" 2) float items
    finish items
    return ⟨x, y⟩
  | other => .error (other.mismatch "struct Position")

def GateEntry.encode (g : GateEntry) : Tree :=
  .object ([("id", .text g.id), ("type", .text g.typeName)]
    ++ g.position.elim [] fun p => [("position", p.encode)])

def GateEntry.decode : Decoder GateEntry
  | .object ms => do
    let (id, typeName, position) ← members (fun (id, typeName, position) key v =>
      match key with
      | "id" => (some ·, typeName, position) <$> once "id" id text v
      | "type" => (id, some ·, position) <$> once "type" typeName text v
      | "position" =>
        (id, typeName, some ·) <$> once "position" position (optional Position.decode) v
      | _ => skip (id, typeName, position) v) (none, none, none) ms
    return ⟨← require "id" id, ← require "type" typeName, position.getD none⟩
  | .list items => do
    let (id, items) ← field (tooShort 0 "GateDescription" 3) text items
    let (typeName, items) ← field (tooShort 1 "GateDescription" 3) text items
    let (position, items) ← field (.ok none) (optional Position.decode) items
    finish items
    return ⟨id, typeName, position⟩
  | other => .error (other.mismatch "struct GateDescription")

namespace Description

def encode (d : Description) : Tree :=
  .object [("gates", .list (d.gates.map GateEntry.encode)), ("links", .list (d.links.map .text))]

def decode : Decoder Description
  | .object ms => do
    let (gates, links) ← members (fun (gates, links) key v =>
      match key with
      | "gates" => (some ·, links) <$> once "gates" gates (list GateEntry.decode) v
      | "links" | "connections" => (gates, some ·) <$> once "links" links (list text) v
      | _ => skip (gates, links) v) (none, none) ms
    return ⟨gates.getD [], links.getD []⟩
  | .list items => do
    let (gates, items) ← field (.ok []) (list GateEntry.decode) items
    let (links, items) ← field (.ok []) (list text) items
    finish items
    return ⟨gates, links⟩
  | other => .error (other.mismatch "struct CircuitDescription")

def toText (d : Description) : String := d.encode.pretty

def ofText (text : String) : Except Fault Description :=
  (document decode text).mapError .document

/-- The links of a description; the first malformed one decides. -/
def specs (d : Description) : Except Fault (List LinkSpec) :=
  d.links.mapM fun link => LinkSpec.parse link.toList

end Description
end TickCircuit
