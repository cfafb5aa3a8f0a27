import TickCircuit.Grammar.Phrase
import TickCircuit.Value.Basic
/-!
Values as text: `0`, `1` and the lists and counted repetitions of the grammar. A literal is a value
or one of the three words for no value.
-/
namespace TickCircuit
open Grammar Text

namespace Value

mutual
def print : Value → List Char
  | .bit l b => printLabel l ++ [if b then '1' else '0']
  | .collection l vs => printLabel l ++ printItems (printAll vs)
def printAll : List Value → List (List Char)
  | [] => []
  | v :: vs => print v :: printAll vs
end

def text (v : Value) : String := String.ofList v.print

def placeholders : List (List Char) := [['a', 'n', 'y'], ['*'], ['n', 'o', 'n', 'e']]

mutual
def ofPhrase : Phrase → Except ParseError Value
  | .word l ['0'] => .ok (.bit l false)
  | .word l ['1'] => .ok (.bit l true)
  | .word _ text =>
    .error ⟨if text ∈ placeholders then .placeholder else .unknownValue, text⟩
  | .list l _ items => .collection l <$> ofPhrases items
  | .times _ text _ none => .error ⟨.unboundedValue, text⟩
  | .times l text item (some n) => do
    let v ← ofPhrase item
    checkExpansion v.nodeCount n text
    return .collection l (List.replicate n v)
def ofPhrases : List Phrase → Except ParseError (List Value)
  | [] => .ok []
  | p :: ps => do
    let v ← ofPhrase p
    let vs ← ofPhrases ps
    return v :: vs
end

def parse (text : List Char) : Except ParseError Value := Phrase.parse text >>= ofPhrase

end Value

/-- A literal's value, or `none` where it is a placeholder. -/
def parseLiteral (text : List Char) : Except ParseError (Option Value) :=
  if trim text ∈ Value.placeholders then .ok none else some <$> Value.parse (trim text)

end TickCircuit
