/-!
Interfaces are the types of ports: a bit, a collection of fixed arity, a rest of any length, the
placeholder `any`, and `none` for no data; each may be labelled.
-/
namespace TickCircuit

inductive Interface where
  | bit (label : Option String)
  | any (label : Option String)
  | none (label : Option String)
  | rest (label : Option String) (element : Interface)
  | collection (label : Option String) (children : List Interface)

namespace Interface

mutual
def decEq : (a b : Interface) → Decidable (a = b)
  | .bit l, .bit m | .any l, .any m | .none l, .none m => decidable_of_iff (l = m) (by simp)
  | .rest l a, .rest m b =>
    have := decEq a b
    decidable_of_iff (l = m ∧ a = b) (by simp)
  | .collection l as, .collection m bs =>
    have := decEqAll as bs
    decidable_of_iff (l = m ∧ as = bs) (by simp)
  | .bit _, .any _ | .bit _, .none _ | .bit _, .rest .. | .bit _, .collection ..
  | .any _, .bit _ | .any _, .none _ | .any _, .rest .. | .any _, .collection ..
  | .none _, .bit _ | .none _, .any _ | .none _, .rest .. | .none _, .collection ..
  | .rest .., .bit _ | .rest .., .any _ | .rest .., .none _ | .rest .., .collection ..
  | .collection .., .bit _ | .collection .., .any _ | .collection .., .none _
  | .collection .., .rest .. => .isFalse nofun
def decEqAll : (as bs : List Interface) → Decidable (as = bs)
  | [], [] => .isTrue rfl
  | [], _ :: _ | _ :: _, [] => .isFalse nofun
  | a :: as, b :: bs =>
    have := decEq a b
    have := decEqAll as bs
    decidable_of_iff (a = b ∧ as = bs) (by simp)
end

instance : DecidableEq Interface := decEq

/-- An interface left out is `any`. -/
instance : Inhabited Interface := ⟨.any Option.none⟩

def label : Interface → Option String
  | .bit l | .any l | .none l | .rest l _ | .collection l _ => l

def withLabel (l : Option String) : Interface → Interface
  | .bit _ => .bit l
  | .any _ => .any l
  | .none _ => .none l
  | .rest _ e => .rest l e
  | .collection _ cs => .collection l cs

def copies (n : Nat) (element : Interface) : Interface :=
  .collection Option.none (List.replicate n element)

def isBit : Interface → Bool
  | .bit _ => true
  | _ => false

def isAny : Interface → Bool
  | .any _ => true
  | _ => false

def isNone : Interface → Bool
  | .none _ => true
  | _ => false

/-- Ports of `any` and rests grow sub-ports on demand. -/
def isExpandable : Interface → Bool
  | .any _ | .rest .. => true
  | _ => false

def child? (index : Nat) : Interface → Option Interface
  | .any _ => some (.any Option.none)
  | .rest _ e => some e
  | .collection _ cs => cs[index]?
  | .bit _ | .none _ => Option.none

mutual
def nodeCount : Interface → Nat
  | .bit _ | .any _ | .none _ => 1
  | .rest _ e => 1 + nodeCount e
  | .collection _ cs => 1 + nodeCountAll cs
def nodeCountAll : List Interface → Nat
  | [] => 0
  | c :: cs => nodeCount c + nodeCountAll cs
end

end Interface
end TickCircuit
