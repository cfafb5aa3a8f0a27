/-!
Decimal counts of one machine word: an optional `+`, then ASCII digits, below `2 ^ 64`.
-/
namespace TickCircuit.Text

def digitValue (c : Char) : Nat := c.toNat - '0'.toNat

def digitsValue (s : List Char) : Nat := s.foldl (fun n c => 10 * n + digitValue c) 0

def wordLimit : Nat := Nat.pow 2 64

def readCount (s : List Char) : Option Nat :=
  let digits := match s with
    | '+' :: rest => rest
    | _ => s
  if digits ≠ [] ∧ digits.all Char.isDigit ∧ digitsValue digits < wordLimit
  then some (digitsValue digits) else none

def countText (n : Nat) : List Char := Nat.toDigits 10 n

example : readCount "+007".toList = some 7 ∧ readCount "+".toList = none := by decide

end TickCircuit.Text
