import TickCircuit.Transform.Basic
/-!
The built-in transforms. The logic ones fold over every bit of their input, so they do not care
how the bits are grouped.
-/
namespace TickCircuit

mutual
/-- Every bit turned over; shape and labels stay. -/
def Value.invert : Value → Value
  | .bit l b => .bit l (!b)
  | .collection l vs => .collection l (invertAll vs)
def Value.invertAll : List Value → List Value
  | [] => []
  | v :: vs => v.invert :: invertAll vs
end

structure Builtin where
  name : String
  doc : String
  category : String
  isStateful : Bool
  fresh : Transform

namespace Builtin

def demanding (f : Value → Value) : Transform :=
  .pure fun
    | none => .error .missingInput
    | some v => .ok (some (f v))

def conjunction (v : Value) : Bool := v.leaves.all id
def disjunction (v : Value) : Bool := v.leaves.any id
def parity (v : Value) : Bool := v.leaves.foldl xor false

def ofBits (f : Value → Bool) : Transform := demanding fun v => .bit none (f v)

def constant (b : Bool) : Transform := .pure fun _ => .ok (some (.bit none b))

def bitOf (memory : Nat) : Value := .bit none (memory = 1)

/-- Shows its memory, which a click turns over. -/
def latch : Transform := ⟨0, fun m _ => (m, .ok (some (bitOf m))), fun m => some (1 - m)⟩

/-- Shows its memory and turns it over. -/
def alternator : Transform := ⟨0, fun m _ => (1 - m, .ok (some (bitOf m))), fun _ => none⟩

def all : List Builtin := [
  ⟨"buffer", "Pass the input through unchanged", "wiring", false, .pure .ok⟩,
  ⟨"not", "Invert every bit of the input", "logic", false, demanding Value.invert⟩,
  ⟨"and", "High when every input bit is high", "logic", false, ofBits conjunction⟩,
  ⟨"or", "High when any input bit is high", "logic", false, ofBits disjunction⟩,
  ⟨"xor", "High when an odd number of input bits are high", "logic", false, ofBits parity⟩,
  ⟨"nand", "Inverted and", "logic", false, ofBits (!conjunction ·)⟩,
  ⟨"nor", "Inverted or", "logic", false, ofBits (!disjunction ·)⟩,
  ⟨"high", "Constant 1", "source", false, constant true⟩,
  ⟨"low", "Constant 0", "source", false, constant false⟩,
  ⟨"switch", "Latch toggled by clicking, starts low", "source", true, latch⟩,
  ⟨"clock", "Alternates between 0 and 1 on every evaluation, starting at 0", "source", true,
    alternator⟩]

def find? (name : String) : Option Transform :=
  (all.find? (·.name == name)).map (·.fresh)

end Builtin
end TickCircuit
