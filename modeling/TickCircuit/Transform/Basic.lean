import TickCircuit.Value.Basic
/-!
Transforms are what function gates compute: a memory, what a value makes of it, and what a click
makes of it.
-/
namespace TickCircuit

inductive TransformFault where
  | missingInput
  | unexpectedInput (expected found : String)
  | failed (reason : String)
deriving DecidableEq

def TransformFault.message : TransformFault → String
  | .missingInput => "input is unavailable"
  | .unexpectedInput expected found => "expected " ++ expected ++ ", got `" ++ found ++ "`"
  | .failed reason => reason

/-- `apply` is given no value where the input carries none, and may yield none. The memory is a
number, which has room for any history of inputs. -/
structure Transform where
  memory : Nat
  apply : Nat → Option Value → Nat × Except TransformFault (Option Value)
  click : Nat → Option Nat

namespace Transform

/-- A transform without memory, deaf to clicks. -/
def pure (f : Option Value → Except TransformFault (Option Value)) : Transform :=
  ⟨0, fun m input => (m, f input), fun _ => none⟩

def run (t : Transform) (input : Option Value) :
    Transform × Except TransformFault (Option Value) :=
  let (memory, result) := t.apply t.memory input
  ({ t with memory }, result)

def clicked (t : Transform) : Transform × Bool :=
  match t.click t.memory with
  | some memory => ({ t with memory }, true)
  | none => (t, false)

theorem run_pure (f : Option Value → Except TransformFault (Option Value)) (input : Option Value) :
    (pure f).run input = (pure f, f input) := rfl

end Transform
end TickCircuit
