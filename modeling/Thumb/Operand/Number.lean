import Thumb.Operand.Error
import Thumb.Text.Blank

namespace Thumb.Operand

/-- Integers of 64 bits with sign. -/
def fits64 (i : Int) : Bool :=
  -0x8000000000000000 ≤ i && i < 0x8000000000000000

/-- The negative in 64 bits, where the least integer is its own. -/
def negate64 (i : Int) : Int :=
  Int.bmod (-i) 0x10000000000000000

/-- A number without its outer sign: hexadecimal after `0x`, binary after `0b`, one character
between apostrophes, or decimal digits. -/
def magnitude? : List Char → Option Int
  | '0' :: 'x' :: digits | '0' :: 'X' :: digits => Text.signed? 16 digits
  | '0' :: 'b' :: digits | '0' :: 'B' :: digits => Text.signed? 2 digits
  | ['\'', c, '\''] => if c.toNat < 128 then some c.toNat else none
  | cs => (Text.natural? 10 cs).map fun n => (n : Int)

/-- A number with an optional sign; blanks may follow a minus sign. -/
def number? (text : String) : Option Int :=
  match Text.trim text.toList with
  | '-' :: rest => ((magnitude? (Text.trimStart rest)).filter fits64).map negate64
  | '+' :: rest => (magnitude? rest).filter fits64
  | cs => (magnitude? cs).filter fits64

def isImmediate (op : String) : Bool :=
  (Text.trimStart op.toList).head? == some '#'

/-- The value after the mark `#`. -/
def immediate (op : String) : Except OperandError Int :=
  match Text.trim op.toList with
  | '#' :: body =>
    match number? (String.ofList body) with
    | some i => .ok i
    | none => .error (.invalidNumber op)
  | _ => .error (.missingHash op)

/-- The field of an immediate that is a multiple of a scale: the multiplier, in so many bits. A
field keeps the lowest 32 of them. -/
def scaledImmediate (op : String) (bits scale : Nat) : Except OperandError Nat := do
  let i ← immediate op
  if scale = 0 then
    throw .zeroScale
  if i % scale ≠ 0 then
    throw (.unaligned op scale)
  let max : Int := (Nat.pow 2 bits - 1) * scale
  if i < 0 ∨ max < i then
    throw (.immediateOutOfRange op 0 max)
  return (i / scale).toNat % 0x100000000

def unsignedImmediate (op : String) (bits : Nat) : Except OperandError Nat :=
  scaledImmediate op bits 1

/-- Requires a given number of operands. -/
def expectCount (mnemonic : String) (operands : List String) (expected : Nat) :
    Except OperandError Unit :=
  if operands.length = expected then .ok ()
  else .error (.operandCount mnemonic expected operands.length)

end Thumb.Operand
