import TickCircuit.Json.Number
import TickCircuit.Json.Text
/-!
Documents to be written, one member or item on a line and each level two spaces further in.
-/
namespace TickCircuit.Json
open Text

inductive Tree where
  | number (x : Float)
  | text (s : String)
  | list (items : List Tree)
  | object (members : List (String × Tree))

namespace Tree

def newLine (depth : Nat) : List Char := '\n' :: List.replicate (2 * depth) ' '

mutual
def print (depth : Nat) : Tree → List Char
  | .number x => printFloat x
  | .text s => printText s
  | .list [] => ['[', ']']
  | .list (v :: vs) =>
    '[' :: newLine (depth + 1) ++ print (depth + 1) v ++ printItems (depth + 1) vs
      ++ newLine depth ++ [']']
  | .object [] => ['\x7b', '\x7d']
  | .object ((key, v) :: ms) =>
    '\x7b' :: newLine (depth + 1) ++ printText key ++ [':', ' '] ++ print (depth + 1) v
      ++ printMembers (depth + 1) ms ++ newLine depth ++ ['\x7d']
def printItems (depth : Nat) : List Tree → List Char
  | [] => []
  | v :: vs => ',' :: newLine depth ++ print depth v ++ printItems depth vs
def printMembers (depth : Nat) : List (String × Tree) → List Char
  | [] => []
  | (key, v) :: ms =>
    ',' :: newLine depth ++ printText key ++ [':', ' '] ++ print depth v ++ printMembers depth ms
end

def pretty (t : Tree) : String := String.ofList (print 0 t)

end Tree
end TickCircuit.Json
