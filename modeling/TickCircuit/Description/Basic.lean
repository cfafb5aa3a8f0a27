/-!
The interior of a circuit as it is saved: its gates, each with an id that only counts within the
description, and its links as text.
-/
namespace TickCircuit

/-- Where an editor draws a gate; nothing else reads it. -/
structure Position where
  x : Float
  y : Float
deriving DecidableEq

def Position.zero : Position := ⟨0, 0⟩

def Position.add (p q : Position) : Position := ⟨p.x + q.x, p.y + q.y⟩

def Position.same (p q : Position) : Bool := p.x == q.x && p.y == q.y

structure GateEntry where
  id : String
  typeName : String
  position : Option Position
deriving DecidableEq

structure Description where
  gates : List GateEntry
  links : List String
deriving DecidableEq

def GateEntry.same (g h : GateEntry) : Bool :=
  g.id == h.id && g.typeName == h.typeName
    && match g.position, h.position with
      | none, none => true
      | some p, some q => p.same q
      | _, _ => false

/-- Whether two descriptions say the same; the two zeros of a coordinate are one. -/
def Description.same (d e : Description) : Bool :=
  d.gates.length == e.gates.length && (d.gates.zip e.gates).all (fun (g, h) => g.same h)
    && d.links == e.links

end TickCircuit
