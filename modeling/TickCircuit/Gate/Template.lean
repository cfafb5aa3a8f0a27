import TickCircuit.Gate.Insert
/-!
Gates from templates. A circuit template is expanded with the templates of its gates; one that is
met again inside its own expansion is refused. Each expansion uses up a name of the registry, so
the recursion ends.
-/
namespace TickCircuit

/-- The names of a registry that are not being expanded. -/
def Registry.unexpanded (r : Registry) (expanding : List String) : List String :=
  r.templates.keys.filter (· ∉ expanding)

theorem Registry.length_unexpanded_lt {r : Registry} {name : String} {expanding : List String}
    (hr : name ∈ r.templates.keys) (hx : name ∉ expanding) :
    (r.unexpanded (expanding ++ [name])).length < (r.unexpanded expanding).length := by
  have h : r.unexpanded (expanding ++ [name]) = (r.unexpanded expanding).filter (· ≠ name) := by
    simp only [unexpanded, List.filter_filter, List.mem_append, List.mem_singleton]
    congr 1
    funext x
    by_cases hx : x = name <;> simp [hx]
  rw [h]
  refine List.length_filter_lt_length_iff_exists.mpr ⟨name, ?_, by simp⟩
  simp [unexpanded, hr, hx]

namespace Gate

/-- A gate around an interior that was inserted from a template, with the boundary that the
template declares merged into the one that the wiring implies. -/
def close (typeName : String) (io : Io) (c : Circuit Gate) : Except Fault Gate := do
  let g ← finished (ofCircuit typeName c).resolve
  let input ← (io.input.merge g.input.interface).mapError .type
  let output ← (io.output.merge g.output.interface).mapError .type
  finished (g.setBoundary input output)

/-- `expanding` holds the circuit templates around the gate, outermost first. -/
def ofTemplateWithin (registry : Registry) (expanding : List String) (typeName : String) :
    Except Fault Gate :=
  match _h : registry.templates.get? typeName with
  | none => .error (.unknownGateType typeName)
  | some template =>
    match template.body typeName with
    | .error e => .error e
    | .ok (.transform name) =>
      .ok (.ofTransform typeName template.io name (registry.transform? name))
    | .ok (.circuit d) =>
      if _hx : typeName ∈ expanding then .error (.recursiveTemplate (expanding ++ [typeName]))
      else
        let make := ofTemplateWithin registry (expanding ++ [typeName])
        match (Circuit.empty registry).insert make d .zero with
        | (_, .error e) => .error e
        | (c, .ok _) => close typeName template.io c
termination_by (registry.unexpanded expanding).length
decreasing_by exact Registry.length_unexpanded_lt (Entries.mem_keys_of_get? _h) _hx

def ofTemplate (registry : Registry) (typeName : String) : Except Fault Gate :=
  ofTemplateWithin registry [] typeName

/-- Inserts a description into a circuit and resolves its boundary, or leaves both as they were. -/
def insert (g : Gate) (d : Description) (offset : Position) :
    Gate × Except Fault (Entries String GateId) :=
  match g with
  | .function face .. => (g, .error (.notACircuit face.name))
  | .circuit face c =>
    match c.insert (ofTemplate c.registry) d offset with
    | (c, .error e) => (.circuit face c, .error e)
    | (c, .ok made) =>
      match (Gate.circuit face c).resolve with
      | (g, .error e) => (g.mapInterior (·.rollback made), .error e)
      | (g, .ok ()) => (g, .ok made.gates)

def insertText (g : Gate) (text : String) (offset : Position) :
    Gate × Except Fault (Entries String GateId) :=
  match Description.ofText text with
  | .error e => (g, .error e)
  | .ok d => g.insert d offset

end Gate

def Circuit.create (c : Circuit Gate) (typeName : String) : Circuit Gate × Except Fault GateId :=
  match Gate.ofTemplate c.registry typeName with
  | .error e => (c, .error e)
  | .ok g => (c.add g, .ok c.nextGate)

end TickCircuit
