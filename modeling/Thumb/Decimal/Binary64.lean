namespace Thumb.Decimal

/-- A value of the 64-bit binary format; a finite one is `mantissa * 2 ^ exponent` with its sign. -/
inductive Binary64
  | nan
  | infinite (negative : Bool)
  | finite (negative : Bool) (mantissa : Nat) (exponent : Int)
deriving DecidableEq, Repr

namespace Binary64

def precision : Nat := 53

/-- The exponent of the smallest positive value. -/
def leastExponent : Int := -1074

/-- The positive number `n * 2 ^ e`, where `n` is within the precision, with the longest mantissa
that the exponent range allows. -/
def normal (negative : Bool) (n : Nat) (e : Int) : Binary64 :=
  let room := min (precision - 1 - n.log2) (e - leastExponent).toNat
  .finite negative (n * Nat.pow 2 room) (e - room)

/-- The value that a sign, an exponent field and a fraction field of the given sizes stand for. -/
def ofFields (exponentBits fractionBits bits : Nat) : Binary64 :=
  let negative := bits.testBit (exponentBits + fractionBits)
  let exponent := bits / Nat.pow 2 fractionBits % Nat.pow 2 exponentBits
  let fraction := bits % Nat.pow 2 fractionBits
  let bias : Int := Nat.pow 2 (exponentBits - 1) - 1 + fractionBits
  if exponent + 1 = Nat.pow 2 exponentBits then
    if fraction = 0 then .infinite negative else .nan
  else if exponent = 0 then
    if fraction = 0 then .finite negative 0 0 else normal negative fraction (1 - bias)
  else normal negative (Nat.pow 2 fractionBits + fraction) (exponent - bias)

def ofBits64 : Nat → Binary64 :=
  ofFields 11 52

/-- The value of a pattern of the 32-bit format, which the 64-bit format holds exactly. -/
def ofBits32 : Nat → Binary64 :=
  ofFields 8 23

/-- `n / 2 ^ k` rounded to the nearest integer, and a half to the even one. -/
def roundShift (n k : Nat) : Nat :=
  let unit := Nat.pow 2 k
  let quotient := n / unit
  let rest := 2 * (n % unit)
  if rest > unit ∨ (rest = unit ∧ quotient % 2 = 1) then quotient + 1 else quotient

def ofInt (i : Int) : Binary64 :=
  let n := i.natAbs
  if n = 0 then .finite false 0 0
  else
    let k := n.log2 + 1 - precision
    let m := roundShift n k
    if m = Nat.pow 2 precision then normal (i < 0) (m / 2) (k + 1) else normal (i < 0) m k

/-- The integer that a finite value is, if it is one. -/
def toInt? : Binary64 → Option Int
  | .finite negative m e =>
    let magnitude :=
      if 0 ≤ e then some (m * Nat.pow 2 e.toNat)
      else if m % Nat.pow 2 (-e).toNat = 0 then some (m / Nat.pow 2 (-e).toNat)
      else none
    magnitude.map fun (n : Nat) => if negative then -(n : Int) else n
  | _ => none

def isInteger (x : Binary64) : Bool :=
  x.toInt?.isSome

end Binary64

end Thumb.Decimal
