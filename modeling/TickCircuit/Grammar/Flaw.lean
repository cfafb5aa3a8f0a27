/-!
Why a text is no type or value. A flaw is a cause; its kind and its wording are functions of it.
-/
namespace TickCircuit.Grammar

inductive FlawKind where
  | empty
  | unexpectedClose
  | mismatched
  | unclosed
  | argumentCount
  | invalidCount
  | unknown
  | notAValue
deriving DecidableEq, Repr

/-- Positions count the bytes of the text before the character in UTF-8. -/
inductive Flaw where
  | nothing
  | nothingAfterLabel
  | unexpectedClose (closer : Char) (position : Nat)
  | mismatched (opener closer : Char) (position : Nat)
  | unclosedCollection
  | unclosedRepetition
  | neverClosed (opener : Char) (position : Nat)
  | argumentCount (given : Nat)
  | unreadableCount
  | countTooLarge
  | expansionTooLarge
  | unknownType
  | unknownValue
  | placeholder
  | unboundedValue
deriving DecidableEq, Repr

def maxCount : Nat := 1024

def maxNodes : Nat := 65536

def Flaw.kind : Flaw → FlawKind
  | .nothing | .nothingAfterLabel => .empty
  | .unexpectedClose .. => .unexpectedClose
  | .mismatched .. => .mismatched
  | .unclosedCollection | .unclosedRepetition | .neverClosed .. => .unclosed
  | .argumentCount _ => .argumentCount
  | .unreadableCount | .countTooLarge | .expansionTooLarge => .invalidCount
  | .unknownType | .unknownValue => .unknown
  | .placeholder | .unboundedValue => .notAValue

def Flaw.message : Flaw → String
  | .nothing => "expected a type or value"
  | .nothingAfterLabel => "label is not followed by a type or value"
  | .unexpectedClose c n => "unexpected `" ++ c.toString ++ "` at position " ++ n.repr
  | .mismatched o c n =>
    "`" ++ o.toString ++ "` closed by `" ++ c.toString ++ "` at position " ++ n.repr
  | .unclosedCollection => "a collection opened with `[` must end with `]`"
  | .unclosedRepetition => "a repetition opened with `<` must end with `>`"
  | .neverClosed o n => "`" ++ o.toString ++ "` opened at position " ++ n.repr ++ " is never closed"
  | .argumentCount n =>
    "expected `<item>` or `<item, count>` but got " ++ n.repr ++ " arguments"
  | .unreadableCount => "expected a repetition count or `*`"
  | .countTooLarge => "repetition count exceeds " ++ maxCount.repr
  | .expansionTooLarge => "repetition expands past " ++ maxNodes.repr ++ " nodes"
  | .unknownType => "unrecognized type"
  | .unknownValue => "unrecognized value"
  | .placeholder => "placeholder is not a concrete value"
  | .unboundedValue => "an unbounded repetition is a type, not a value"

structure ParseError where
  flaw : Flaw
  segment : List Char
deriving DecidableEq, Repr

def ParseError.message (e : ParseError) : String :=
  e.flaw.message ++ " in `" ++ String.ofList e.segment ++ "`"

end TickCircuit.Grammar
