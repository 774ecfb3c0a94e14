import Thumb.Decimal.Binary64

namespace Thumb.Decimal

/-- A positive decimal number, `digits * 10 ^ exponent`. -/
structure Numeral where
  digits : Nat
  exponent : Int
deriving DecidableEq, Repr

/-- A value with the numbers that round to it: the value and the ends of that interval, all over one
denominator, and whether the ends belong to it. -/
structure Interval where
  value : Nat
  low : Nat
  high : Nat
  denominator : Nat
  closed : Bool

/-- The interval of the positive value `m * 2 ^ e`. Below a power of two the neighbours stand twice
as close. -/
def Interval.of (m : Nat) (e : Int) : Interval :=
  let narrow := m = Nat.pow 2 (Binary64.precision - 1) ∧ Binary64.leastExponent < e
  let scale := Nat.pow 2 (e - 2).toNat
  { value := 4 * m * scale
    low := (if narrow then 4 * m - 1 else 4 * m - 2) * scale
    high := (4 * m + 2) * scale
    denominator := Nat.pow 2 (2 - e).toNat
    closed := m % 2 == 0 }

def Interval.contains (i : Interval) (numerator denominator : Nat) : Bool :=
  let n := numerator * i.denominator
  let low := i.low * denominator
  let high := i.high * denominator
  if i.closed then low ≤ n && n ≤ high else low < n && n < high

/-- The exponent of the leading decimal digit. -/
def Interval.leadingExponent (i : Interval) : Int :=
  if i.denominator ≤ i.value then
    ((Nat.toDigits 10 (i.value / i.denominator)).length : Int) - 1
  else
    let zeros := (List.range 400).find? fun k => i.denominator ≤ i.value * Nat.pow 10 (k + 1)
    Int.negSucc (zeros.getD 0)

/-- The multiple of `10 ^ exponent` in the interval that is nearest to the value, and the greater of
two equally near ones. -/
def Interval.onGrid (i : Interval) (exponent : Int) : Option Nat :=
  let up := Nat.pow 10 exponent.toNat
  let down := Nat.pow 10 (-exponent).toNat
  let unit := up * i.denominator
  let below := i.value * down / unit
  let rest := i.value * down % unit
  let first := if unit ≤ 2 * rest then below + 1 else below
  let second := if unit ≤ 2 * rest then below else below + 1
  [first, second].find? fun n => i.contains (n * up) down

/-- The fewest digits that lie in the interval of the value, and of those the nearest ones. -/
def shortest (m : Nat) (e : Int) : Numeral :=
  let i := Interval.of m e
  let lead := i.leadingExponent
  let found := (List.range 18).findSome? fun (n : Nat) =>
    (i.onGrid (lead + 1 - n)).map fun digits => { digits, exponent := lead + 1 - n }
  found.getD { digits := m, exponent := e }

/-- Positional notation, without an exponent. -/
def Numeral.positional (d : Numeral) : String :=
  let digits := Nat.toDigits 10 d.digits
  if 0 ≤ d.exponent then
    String.ofList (digits ++ List.replicate d.exponent.toNat '0')
  else
    let places := (-d.exponent).toNat
    let padded := digits.leftpad (places + 1) '0'
    let whole := padded.length - places
    String.ofList (padded.take whole ++ '.' :: padded.drop whole)

/-- The text of a value: a sign, and the shortest digits that read back. -/
def Binary64.text : Binary64 → String
  | .nan => "NaN"
  | .infinite negative => if negative then "-inf" else "inf"
  | .finite negative m e =>
    let magnitude := if m = 0 then "0" else (shortest m e).positional
    if negative then "-" ++ magnitude else magnitude

end Thumb.Decimal
