import TickCircuit.Decimal.Shortest
/-!
How the shortest digits of a double are laid out. A layout says where positional notation ends,
and how an exponent is written.
-/
namespace TickCircuit.Decimal
open Text

structure Layout where
  /-- Exponents of the first digit from `least` to `greatest` are written positionally. -/
  least : Int
  greatest : Int
  /-- Marks before a positive and before a negative exponent. -/
  upward : List Char
  downward : List Char

def zeros (n : Int) : List Char := List.replicate n.toNat '0'

def Layout.positive (l : Layout) (s : Scientific) : List Char :=
  let digits := countText s.digits
  let point : Int := digits.length + s.exponent
  let exponent := point - 1
  if l.least ≤ exponent ∧ exponent ≤ l.greatest then
    if 0 ≤ s.exponent then digits ++ zeros s.exponent ++ ['.', '0']
    else if 0 < point then digits.take point.toNat ++ '.' :: digits.drop point.toNat
    else '0' :: '.' :: zeros (-point) ++ digits
  else
    let mantissa := match digits with
      | [d] => [d]
      | d :: more => d :: '.' :: more
      | [] => []
    mantissa ++ (if exponent < 0 then l.downward else l.upward) ++ countText exponent.natAbs

def Layout.print (l : Layout) (x : Float) : Option (List Char) :=
  let bits := x.toBits.toNat
  let sign := if bits.testBit 63 then ['-'] else []
  if exponentField bits = 2047 then none
  else if exponentField bits = 0 ∧ fractionField bits = 0 then some (sign ++ ['0', '.', '0'])
  else some (sign ++ l.positive (Binary.ofBits bits).shortest)

end TickCircuit.Decimal
