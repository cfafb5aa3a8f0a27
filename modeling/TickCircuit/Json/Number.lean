import TickCircuit.Decimal.Layout
/-!
Numbers of a document. A numeral is the text of one; its value is a machine word where it is whole
and fits, and else a double. Digits that no longer fit a word only count towards the exponent.
-/
namespace TickCircuit.Json
open Text

inductive Number where
  | whole (n : Int)
  | real (x : Float)
deriving DecidableEq

def Number.toFloat : Number → Float
  | .whole n =>
    if n < 0 then -(UInt64.ofNat n.natAbs).toFloat else (UInt64.ofNat n.natAbs).toFloat
  | .real x => x

/-- Exponents from `-5` to `15` are positional, and every other one carries its sign. -/
def layout : Decimal.Layout := ⟨-5, 15, ['e', '+'], ['e', '-']⟩

def printFloat (x : Float) : List Char := (layout.print x).getD ['n', 'u', 'l', 'l']

structure Numeral where
  negative : Bool
  whole : List Char
  fraction : List Char
  /-- Whether the exponent is negative, and its digits. -/
  exponent : Option (Bool × List Char)

def readDigits (s : List Char) : List Char × List Char :=
  (s.takeWhile Char.isDigit, s.dropWhile Char.isDigit)

/-- A point must be followed by a digit. -/
def readFraction : List Char → Option (List Char × List Char)
  | '.' :: rest =>
    let (digits, rest) := readDigits rest
    if digits = [] then none else some (digits, rest)
  | s => some ([], s)

def readExponentSign : List Char → Bool × List Char
  | '+' :: rest => (false, rest)
  | '-' :: rest => (true, rest)
  | s => (false, s)

def readExponent (s : List Char) : Option (Option (Bool × List Char) × List Char) :=
  match s with
  | c :: rest =>
    if c = 'e' ∨ c = 'E' then
      let (negative, rest) := readExponentSign rest
      let (digits, rest) := readDigits rest
      if digits = [] then none else some (some (negative, digits), rest)
    else some (none, s)
  | [] => some (none, [])

/-- A whole part of several digits may not begin with a zero. -/
def isWholePart : List Char → Bool
  | [] => false
  | ['0'] => true
  | c :: _ => c != '0'

def readNumeral (s : List Char) : Option (Numeral × List Char) := do
  let (negative, s) := match s with
    | '-' :: rest => (true, rest)
    | _ => (false, s)
  let (whole, s) := readDigits s
  if !isWholePart whole then none
  let (fraction, s) ← readFraction s
  let (exponent, s) ← readExponent s
  return (⟨negative, whole, fraction, exponent⟩, s)

/-- Takes in digits as long as the word has room; also says how many it took. -/
def fill (word : Nat) : List Char → Nat × Nat
  | [] => (word, 0)
  | c :: rest =>
    let next := 10 * word + digitValue c
    if next < wordLimit then
      let (filled, taken) := fill next rest
      (filled, taken + 1)
    else (word, 0)

def powerOfTen (n : Nat) : Float := Float.ofScientific 1 false n

/-- `x * 10 ^ exponent` in double arithmetic; `none` beyond the range of doubles. -/
def scale (x : Float) (exponent : Int) : Option Float :=
  if exponent.natAbs ≤ 308 then
    if exponent < 0 then some (x / powerOfTen exponent.natAbs)
    else
      let y := x * powerOfTen exponent.natAbs
      if y.isInf then none else some y
  else if x == 0 then some x
  else if 0 < exponent then none
  else scale (x / powerOfTen 308) (exponent + 308)
termination_by (-exponent).toNat

/-- The greatest exponent that is told from an overflow. -/
def exponentLimit : Nat := Nat.pow 2 31

/-- The value of a numeral; `none` beyond the range of doubles. -/
def Numeral.value (n : Numeral) : Option Number :=
  let signed := fun (x : Float) => Number.real (if n.negative then -x else x)
  let (word, taken) := fill 0 n.whole
  let spilled := n.whole.length - taken
  if n.fraction = [] ∧ n.exponent = none ∧ spilled = 0 then
    if !n.negative then some (.whole word)
    else if word = 0 ∨ Nat.pow 2 63 < word then some (signed (UInt64.ofNat word).toFloat)
    else some (.whole (-word))
  else
    let (word, taken) := fill word n.fraction
    let start : Int := spilled - taken
    let x := (UInt64.ofNat word).toFloat
    match n.exponent with
    | none => signed <$> scale x start
    | some (negative, digits) =>
      let size := digitsValue digits
      if exponentLimit ≤ size then
        if word ≠ 0 ∧ !negative then none else some (signed 0)
      else signed <$> scale x (if negative then start - size else start + size)

end TickCircuit.Json
