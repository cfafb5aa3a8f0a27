import TickCircuit.Json.Flaw
/-!
Decoding of drafts. A walk goes through a draft in the order of its text, so the first fault met
decides. A record is an object with named members, or a list of its fields in order.
-/
namespace TickCircuit.Json

abbrev Decoder (α : Type) := Draft → Except Flaw α

namespace Decoder

def text : Decoder String
  | .text (some s) => .ok s
  | other => .error (other.mismatch "a string")

def float : Decoder Float
  | .number (some n) => .ok n.toFloat
  | other => .error (other.mismatch "f64")

/-- `null` counts as absent. -/
def optional {α : Type} (decode : Decoder α) : Decoder (Option α)
  | .null => .ok none
  | other => some <$> decode other

def list {α : Type} (decode : Decoder α) : Decoder (List α)
  | .list items => items.mapM decode
  | other => .error (other.mismatch "a sequence")

def skip {α : Type} (a : α) : Decoder α := fun v =>
  if v.isWellFormed then .ok a else .error .malformed

def entries {α : Type} (decode : Decoder α) :
    List (Option String × Draft) → Except Flaw (List (String × α))
  | [] => .ok []
  | (none, _) :: _ => .error .malformed
  | (some key, v) :: rest => do
    let a ← decode v
    let more ← entries decode rest
    return (key, a) :: more

def map {α : Type} (decode : Decoder α) : Decoder (List (String × α))
  | .object members => entries decode members
  | other => .error (other.mismatch "a map")

/-- Walks the members of a record; `step` says what a member does to the fields read so far. -/
def members {σ : Type} (step : σ → String → Decoder σ) : σ → List (Option String × Draft) →
    Except Flaw σ
  | fields, [] => .ok fields
  | _, (none, _) :: _ => .error .malformed
  | fields, (some key, v) :: rest => do
    let fields ← step fields key v
    members step fields rest

/-- A field may be given once; a second one is refused before its value is read. -/
def once {α : Type} (name : String) (field : Option α) (decode : Decoder α) : Decoder α := fun v =>
  if field.isSome then .error (.shape (.duplicateField name)) else decode v

def require {α : Type} (name : String) (field : Option α) : Except Flaw α :=
  field.elim (.error (.shape (.missingField name))) .ok

/-- The next field of a record that is written as a list, or `absent` where the list has ended. -/
def field {α : Type} (absent : Except Flaw α) (decode : Decoder α) :
    List Draft → Except Flaw (α × List Draft)
  | [] => (·, []) <$> absent
  | v :: rest => (·, rest) <$> decode v

def tooShort {α : Type} (length : Nat) (record : String) (fields : Nat) : Except Flaw α :=
  .error (.shape (.wrongLength length record fields))

/-- Nothing may follow the last field of a record that is written as a list. -/
def finish : List Draft → Except Flaw Unit
  | [] => .ok ()
  | _ => .error .malformed

/-- Decodes a whole text; a flaw of the value goes before one of what follows it. -/
def document {α : Type} (decode : Decoder α) (text : String) : Except Flaw α := do
  let (draft, isWhole) := Draft.ofText text
  let a ← decode draft
  if isWhole then .ok a else .error .malformed

end Decoder
end TickCircuit.Json
