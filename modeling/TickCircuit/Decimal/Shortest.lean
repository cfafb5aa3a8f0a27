import TickCircuit.Text.Count
/-!
The fewest decimal digits that read back to a double. A double is `mantissa * 2 ^ power`; the
decimals that round to it fill an interval around it, whose ends belong to it when the mantissa is
even. Grids `10 ^ k` are tried from coarse to fine, and the first that meets the interval wins.
Main statement: what a grid offers lies in the interval (`Interval.contains_onGrid`).
-/
namespace TickCircuit.Decimal

/-- The positive double `mantissa * 2 ^ power`; `isEdge` where the double below it is nearer
than the one above. -/
structure Binary where
  mantissa : Nat
  power : Int
  isEdge : Bool

def fractionField (bits : Nat) : Nat := bits % Nat.pow 2 52

/-- All ones for the infinities and for what is no number. -/
def exponentField (bits : Nat) : Nat := bits / Nat.pow 2 52 % 2048

/-- A fraction has a one in front of it, unless the exponent field is zero. -/
def Binary.ofBits (bits : Nat) : Binary :=
  let fraction := fractionField bits
  let exponent := exponentField bits
  if exponent = 0 then ⟨fraction, -1074, false⟩
  else ⟨Nat.pow 2 52 + fraction, (exponent : Int) - 1075, fraction = 0 ∧ 1 < exponent⟩

/-- Numerators over the common denominator `unit`, in steps of one grid. -/
structure Interval where
  low : Nat
  value : Nat
  high : Nat
  closed : Bool
  unit : Nat

def Binary.interval (b : Binary) (k : Int) : Interval :=
  let scale := Nat.pow 2 (b.power - 2).toNat * Nat.pow 10 (-k).toNat
  { low := (4 * b.mantissa - if b.isEdge then 1 else 2) * scale
    value := 4 * b.mantissa * scale
    high := (4 * b.mantissa + 2) * scale
    closed := b.mantissa % 2 = 0
    unit := Nat.pow 2 (2 - b.power).toNat * Nat.pow 10 k.toNat }

def Interval.contains (i : Interval) (n : Nat) : Bool :=
  if i.closed then i.low ≤ n * i.unit && n * i.unit ≤ i.high
  else i.low < n * i.unit && n * i.unit < i.high

/-- The step of the grid nearest to the value, among its two neighbours in the interval; of two
equally near ones the even one. -/
def Interval.onGrid (i : Interval) : Option Nat :=
  let n := i.value / i.unit
  match i.contains n, i.contains (n + 1) with
  | false, false => none
  | true, false => some n
  | false, true => some (n + 1)
  | true, true =>
    let below := i.value - n * i.unit
    let above := (n + 1) * i.unit - i.value
    if below < above ∨ (below = above ∧ n % 2 = 0) then some n else some (n + 1)

theorem Interval.contains_onGrid {i : Interval} {n : Nat} (h : i.onGrid = some n) :
    i.contains n := by
  unfold onGrid at h
  dsimp only at h
  split at h
  · cases h
  · cases h; assumption
  · cases h; assumption
  · split at h <;> cases h <;> assumption

structure Scientific where
  digits : Nat
  exponent : Int
deriving DecidableEq, Repr

/-- An exponent of ten whose power is above `b`, by three orders at most. -/
def Binary.magnitude (b : Binary) : Int :=
  (b.power + b.mantissa.log2 + 1) * 30103 / 100000 + 2

def Binary.fit (b : Binary) (k : Int) : Option Scientific :=
  (b.interval k).onGrid.map (⟨·, k⟩)

/-- Seventeen digits always suffice, so one of the first twenty-two grids fits. -/
def Binary.shortest (b : Binary) : Scientific :=
  ((List.range 22).findSome? fun (step : Nat) => b.fit (b.magnitude - step)).getD ⟨b.mantissa, 0⟩

example : (Binary.ofBits 0x3FB999999999999A).shortest = ⟨1, -1⟩ := by decide +kernel
example : (Binary.ofBits 0x0000000000000001).shortest = ⟨5, -324⟩ := by decide +kernel

end TickCircuit.Decimal
