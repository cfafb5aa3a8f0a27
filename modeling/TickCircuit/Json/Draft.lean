import TickCircuit.Json.Number
import TickCircuit.Json.Text
/-!
A document as far as it can be read. Where its text stops being well formed the draft has a
`broken` part, and nothing after it; so the first fault of a document is the first that a walk over
its draft meets. A number out of range or a text with a lone unit is kept as `none`, because it
only matters where it is used.
-/
namespace TickCircuit.Json
open Text

inductive Draft where
  | null
  | bool (b : Bool)
  | number (n : Option Number)
  | text (s : Option String)
  | list (items : List Draft)
  | object (members : List (Option String × Draft))
  | broken

namespace Draft

def isGap (c : Char) : Bool := c == ' ' || c == '\n' || c == '\t' || c == '\r'

def skipGap (s : List Char) : List Char := s.dropWhile isGap

def broke {α : Type} (a : α) : α × Option (List Char) := (a, none)

def readWord (s : List Char) : Draft × Option (List Char) :=
  match s with
  | 't' :: 'r' :: 'u' :: 'e' :: rest => (.bool true, some rest)
  | 'f' :: 'a' :: 'l' :: 's' :: 'e' :: rest => (.bool false, some rest)
  | 'n' :: 'u' :: 'l' :: 'l' :: rest => (.null, some rest)
  | _ =>
    match readNumeral s with
    | some (numeral, rest) => (.number numeral.value, some rest)
    | none => broke .broken

mutual
/-- A value and the text after it; no text where the value has a broken part. -/
def readValue (fuel : Nat) (s : List Char) : Draft × Option (List Char) :=
  match fuel with
  | 0 => broke .broken
  | fuel + 1 =>
    match skipGap s with
    | '[' :: rest =>
      match skipGap rest with
      | ']' :: rest => (.list [], some rest)
      | rest =>
        let (items, after) := readItems fuel rest
        (.list items, after)
    | '\x7b' :: rest =>
      match skipGap rest with
      | '\x7d' :: rest => (.object [], some rest)
      | rest =>
        let (members, after) := readMembers fuel rest
        (.object members, after)
    | '"' :: rest =>
      match readText rest with
      | some (s, rest) => (.text s, some rest)
      | none => broke .broken
    | s => readWord s
def readItems (fuel : Nat) (s : List Char) : List Draft × Option (List Char) :=
  match fuel with
  | 0 => broke [.broken]
  | fuel + 1 =>
    match readValue fuel s with
    | (v, none) => broke [v]
    | (v, some rest) =>
      match skipGap rest with
      | ',' :: rest =>
        let (items, after) := readItems fuel rest
        (v :: items, after)
      | ']' :: rest => ([v], some rest)
      | _ => broke [v, .broken]
def readMembers (fuel : Nat) (s : List Char) : List (Option String × Draft) × Option (List Char) :=
  match fuel with
  | 0 => broke [(none, .broken)]
  | fuel + 1 =>
    match skipGap s with
    | '"' :: rest =>
      match readText rest with
      | none => broke [(none, .broken)]
      | some (key, rest) =>
        match skipGap rest with
        | ':' :: rest =>
          match readValue fuel rest with
          | (v, none) => broke [(key, v)]
          | (v, some rest) =>
            match skipGap rest with
            | ',' :: rest =>
              let (members, after) := readMembers fuel rest
              ((key, v) :: members, after)
            | '\x7d' :: rest => ([(key, v)], some rest)
            | _ => broke [(key, v), (none, .broken)]
        | _ => broke [(key, .broken)]
    | _ => broke [(none, .broken)]
end

/-- The first value of a text, and whether nothing but gaps follows it. -/
def ofText (text : String) : Draft × Bool :=
  let s := text.toList
  let (draft, after) := readValue (2 * s.length + 2) s
  (draft, after.any fun rest => skipGap rest = [])

mutual
/-- A value that is passed over has only to be well formed. -/
def isWellFormed : Draft → Bool
  | .broken => false
  | .list items => areWellFormed items
  | .object members => haveWellFormed members
  | _ => true
def areWellFormed : List Draft → Bool
  | [] => true
  | v :: vs => isWellFormed v && areWellFormed vs
def haveWellFormed : List (Option String × Draft) → Bool
  | [] => true
  | (_, v) :: ms => isWellFormed v && haveWellFormed ms
end

end Draft
end TickCircuit.Json
