import Thumb.Decimal.Shortest
import Thumb.Word

namespace Thumb

open Decimal

/-- A number as it is handed over: an exact integer, or a floating-point value. -/
inductive Number
  | integer (value : Int)
  | real (value : Binary64)
deriving DecidableEq, Repr

/-- The two readings of a fixed number of bits. -/
inductive Interpretation
  | unsigned
  | signed
deriving DecidableEq, Repr

def Interpretation.name : Interpretation → String
  | .unsigned => "unsigned"
  | .signed => "signed"

inductive ValueError
  | notInteger (value : Binary64)
  | outOfRange (value : Binary64) (bits : Nat) (interpretation : Interpretation)
  | byteCount (expected found : Nat)
deriving DecidableEq, Repr

def ValueError.message : ValueError → String
  | .notInteger value => s!"{value.text} is not an integer"
  | .outOfRange value bits interpretation =>
    s!"{value.text} does not fit in {bits} bits ({interpretation.name})"
  | .byteCount expected found => s!"expected {expected} bytes, got {found}"

namespace Number

def toBinary64 : Number → Binary64
  | .integer i => .ofInt i
  | .real x => x

def toInt? : Number → Option Int
  | .integer i => some i
  | .real x => x.toInt?

def fits128 (i : Int) : Bool :=
  -0x80000000000000000000000000000000 ≤ i && i < 0x80000000000000000000000000000000

/-- The integer that the number is, within 128 bits. Its floating-point value, to which a large
integer is rounded, is looked at first. -/
def integral (x : Number) : Except ValueError Int :=
  let rounded := x.toBinary64
  if !rounded.isInteger then .error (.notInteger rounded)
  else
    match x.toInt?.filter fits128 with
    | some i => .ok i
    | none => .error (.notInteger rounded)

end Number

namespace Width

variable (w : Width)

/-- The value of a number from 0 to `2 ^ bits - 1`. -/
def ofUnsigned (x : Number) : Except ValueError (BitVec w.bits) := do
  let i ← x.integral
  if 0 ≤ i ∧ i < Nat.pow 2 w.bits then
    return BitVec.ofInt w.bits i
  else
    throw (.outOfRange (.ofInt i) w.bits .unsigned)

/-- The two's complement of a number from `-2 ^ (bits - 1)` to `2 ^ (bits - 1) - 1`. -/
def ofSigned (x : Number) : Except ValueError (BitVec w.bits) := do
  let i ← x.integral
  if -Nat.pow 2 (w.bits - 1) ≤ i ∧ i < Nat.pow 2 (w.bits - 1) then
    return BitVec.ofInt w.bits i
  else
    throw (.outOfRange (.ofInt i) w.bits .signed)

/-- A number read as unsigned if it fits so, and else as signed. -/
def ofEither (x : Number) : Except ValueError (BitVec w.bits) :=
  match w.ofUnsigned x with
  | .ok v => .ok v
  | .error _ => w.ofSigned x

/-- The value of exactly as many little-endian bytes as the width has. -/
def ofBytesExact (bytes : List Byte) : Except ValueError (BitVec w.bits) :=
  if bytes.length = w.bytes then .ok (w.ofBytes bytes)
  else .error (.byteCount w.bytes bytes.length)

end Width

end Thumb
