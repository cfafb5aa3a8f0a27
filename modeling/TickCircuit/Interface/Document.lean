import TickCircuit.Interface.Text
import TickCircuit.Json.Decode
import TickCircuit.Json.Tree
/-!
Interfaces in documents are written as their text.
-/
namespace TickCircuit.Interface
open Json

def encode (i : Interface) : Tree := .text i.text

def decode : Decoder Interface := fun v => do
  let text ← Decoder.text v
  match parse text.toList with
  | .ok i => .ok i
  | .error e => .error (.shape (.badInterface e))

end TickCircuit.Interface
