import TickCircuit.Grammar.Phrase
import TickCircuit.Interface.Basic
/-!
Interfaces as text: the words `bit`, `any` (or `*`) and `none`, lists, and repetitions, where one
without a count is a rest.
-/
namespace TickCircuit.Interface
open Grammar

mutual
def print : Interface → List Char
  | .bit l => printLabel l ++ ['b', 'i', 't']
  | .any l => printLabel l ++ ['a', 'n', 'y']
  | .none l => printLabel l ++ ['n', 'o', 'n', 'e']
  | .rest l e => printLabel l ++ '<' :: print e ++ ['>']
  | .collection l cs => printLabel l ++ printItems (printAll cs)
def printAll : List Interface → List (List Char)
  | [] => []
  | c :: cs => print c :: printAll cs
end

def text (i : Interface) : String := String.ofList i.print

mutual
def ofPhrase : Phrase → Except ParseError Interface
  | .word l ['b', 'i', 't'] => .ok (.bit l)
  | .word l ['a', 'n', 'y'] | .word l ['*'] => .ok (.any l)
  | .word l ['n', 'o', 'n', 'e'] => .ok (.none l)
  | .word _ text => .error ⟨.unknownType, text⟩
  | .list l _ items => .collection l <$> ofPhrases items
  | .times l text item count => do
    let e ← ofPhrase item
    match count with
    | Option.none => return .rest l e
    | some n =>
      checkExpansion e.nodeCount n text
      return .collection l (List.replicate n e)
def ofPhrases : List Phrase → Except ParseError (List Interface)
  | [] => .ok []
  | p :: ps => do
    let i ← ofPhrase p
    let is ← ofPhrases ps
    return i :: is
end

def parse (text : List Char) : Except ParseError Interface := Phrase.parse text >>= ofPhrase

end TickCircuit.Interface
