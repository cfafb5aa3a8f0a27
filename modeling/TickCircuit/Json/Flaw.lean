import TickCircuit.Grammar.Flaw
import TickCircuit.Json.Draft
import TickCircuit.Text.Quoted
/-!
Why a document cannot be used: it is malformed, or a well-formed part of it has the wrong shape.
-/
namespace TickCircuit.Json
open Text

inductive ShapeFlaw where
  | missingField (name : String)
  | duplicateField (name : String)
  | wrongType (found wanted : String)
  | wrongLength (length : Nat) (record : String) (fields : Nat)
  | badInterface (error : Grammar.ParseError)
deriving DecidableEq

def ShapeFlaw.message : ShapeFlaw → String
  | .missingField name => "missing field `" ++ name ++ "`"
  | .duplicateField name => "duplicate field `" ++ name ++ "`"
  | .wrongType found wanted => "invalid type: " ++ found ++ ", expected " ++ wanted
  | .wrongLength n record fields =>
    "invalid length " ++ n.repr ++ ", expected struct " ++ record ++ " with " ++ fields.repr
      ++ " elements"
  | .badInterface e => e.message

inductive Flaw where
  | malformed
  | shape (flaw : ShapeFlaw)
deriving DecidableEq

def Number.describe : Number → String
  | .whole n => "integer `" ++ toString n ++ "`"
  | .real x => "floating point `" ++ String.ofList (printFloat x) ++ "`"

/-- The flaw of a value that is not what was wanted. What a list or an object holds is not read. -/
def Draft.mismatch (wanted : String) : Draft → Flaw
  | .null => .shape (.wrongType "null" wanted)
  | .bool b => .shape (.wrongType (if b then "boolean `true`" else "boolean `false`") wanted)
  | .number (some n) => .shape (.wrongType n.describe wanted)
  | .text (some s) => .shape (.wrongType ("string " ++ quote s) wanted)
  | .list _ => .shape (.wrongType "sequence" wanted)
  | .object _ => .shape (.wrongType "map" wanted)
  | .number none | .text none | .broken => .malformed

end TickCircuit.Json
