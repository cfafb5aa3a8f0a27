/-!
Values are trees of bits with optional labels. Main statements: equality of values is decidable,
and the leaves of a collection are those of its children in order.
-/
namespace TickCircuit

inductive Value where
  | bit (label : Option String) (high : Bool)
  | collection (label : Option String) (children : List Value)

namespace Value

mutual
def decEq : (a b : Value) → Decidable (a = b)
  | .bit l x, .bit m y => decidable_of_iff (l = m ∧ x = y) (by simp)
  | .collection l xs, .collection m ys =>
    have := decEqAll xs ys
    decidable_of_iff (l = m ∧ xs = ys) (by simp)
  | .bit .., .collection .. | .collection .., .bit .. => .isFalse nofun
def decEqAll : (xs ys : List Value) → Decidable (xs = ys)
  | [], [] => .isTrue rfl
  | [], _ :: _ | _ :: _, [] => .isFalse nofun
  | x :: xs, y :: ys =>
    have := decEq x y
    have := decEqAll xs ys
    decidable_of_iff (x = y ∧ xs = ys) (by simp)
end

instance : DecidableEq Value := decEq

def high : Value := .bit none true
def low : Value := .bit none false

instance : Inhabited Value := ⟨low⟩

def bits (bs : List Bool) : Value := .collection none (bs.map (.bit none))

def label : Value → Option String
  | .bit l _ | .collection l _ => l

def withLabel (l : Option String) : Value → Value
  | .bit _ b => .bit l b
  | .collection _ vs => .collection l vs

def bit? : Value → Option Bool
  | .bit _ b => some b
  | .collection .. => none

def children? : Value → Option (List Value)
  | .bit .. => none
  | .collection _ vs => some vs

mutual
/-- Every bit of the tree, depth first. -/
def leaves : Value → List Bool
  | .bit _ b => [b]
  | .collection _ vs => leavesAll vs
def leavesAll : List Value → List Bool
  | [] => []
  | v :: vs => leaves v ++ leavesAll vs
end

mutual
def nodeCount : Value → Nat
  | .bit .. => 1
  | .collection _ vs => 1 + nodeCountAll vs
def nodeCountAll : List Value → Nat
  | [] => 0
  | v :: vs => nodeCount v + nodeCountAll vs
end

end Value
end TickCircuit
