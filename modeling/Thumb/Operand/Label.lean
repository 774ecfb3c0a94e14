import Thumb.Operand.Register
import Thumb.Table
import Thumb.Word

namespace Thumb

/-- The address of an instruction, and the addresses that labels stand for. -/
structure Labels where
  site : Word
  targets : Table String Word
deriving DecidableEq, Repr

namespace Labels

/-- The distance to a label from the instruction's address plus four. -/
def offset? (l : Labels) (name : String) : Option Int :=
  (l.targets.get? name).map fun target => target.toNat - (l.site.toNat + 4 : Int)

/-- The distance to a label from the instruction's address plus four, rounded down to a multiple of
four. -/
def alignedOffset? (l : Labels) (name : String) : Option Int :=
  (l.targets.get? name).map fun target => target.toNat - (((l.site + 4) &&& ~~~3).toNat : Int)

end Labels

namespace Operand

def isNameStart (c : Char) : Bool :=
  c.isAlpha || c == '_' || c == '.' || c == '$'

def isNameChar (c : Char) : Bool :=
  c.isAlphanum || c == '_' || c == '.' || c == '$'

/-- A symbol name that is not a register. -/
def isLabel (op : String) : Bool :=
  match Text.trim op.toList with
  | [] => false
  | c :: cs => isNameStart c && cs.all isNameChar && !isRegister op

/-- The distance to a label; zero while addresses are unknown. -/
def labelOffset (op : String) (labels : Option Labels) (aligned : Bool) :
    Except OperandError Int :=
  match labels with
  | none => .ok 0
  | some l =>
    let name := Text.trimmed op
    match if aligned then l.alignedOffset? name else l.offset? name with
    | some offset => .ok offset
    | none => .error (.unknownLabel name)

/-- The distance to a label as a multiple of a scale, between given bounds of the multiplier. -/
def boundedOffset (label : String) (offset : Int) (scale : Nat) (min max : Int) :
    Except OperandError Int :=
  if scale = 0 then
    .error .zeroScale
  else if offset % scale ≠ 0 then
    .error (.misalignedTarget label offset scale)
  else if offset / scale < min ∨ max < offset / scale then
    .error (.offsetOutOfRange label offset (min * scale) (max * scale))
  else
    .ok (offset / scale)

/-- The distance to a label over a scale, as a two's-complement field. -/
def signedLabelField (op : String) (labels : Option Labels) (bits scale : Nat) :
    Except OperandError Nat := do
  let offset ← labelOffset op labels false
  let half : Int := Nat.pow 2 (bits - 1)
  let field ← boundedOffset (Text.trimmed op) offset scale (-half) (half - 1)
  return (field % Nat.pow 2 bits).toNat

/-- The distance to a label ahead, in words, as an unsigned field. -/
def alignedLabelField (op : String) (labels : Option Labels) (bits : Nat) :
    Except OperandError Nat := do
  let offset ← labelOffset op labels true
  let field ← boundedOffset (Text.trimmed op) offset 4 0 (Nat.pow 2 bits - 1)
  return field.toNat

end Operand

end Thumb
