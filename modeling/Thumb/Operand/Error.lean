import Thumb.Register.Basic
import Thumb.Text.Quoted

namespace Thumb

inductive OperandError
  | operandCount (mnemonic : String) (expected found : Nat)
  | notRegister (operand : String)
  | notLowRegister (operand : String)
  | unexpectedOperand (operand expected : String)
  | missingHash (operand : String)
  | invalidNumber (operand : String)
  | immediateOutOfRange (operand : String) (min max : Int)
  | unaligned (operand : String) (alignment : Nat)
  /-- Nothing is a multiple of zero. -/
  | zeroScale
  | malformedMemory (operand : String)
  | malformedRegisterList (operand : String)
  | duplicateRegister (operand : String) (register : Reg)
  | registerNotAllowed (operand : String) (register : Reg)
  | unknownLabel (label : String)
  | misalignedTarget (label : String) (offset : Int) (alignment : Nat)
  | offsetOutOfRange (label : String) (offset min max : Int)
  | unknownInstruction (mnemonic : String) (operands : List String)
deriving DecidableEq, Repr

open Text in
def OperandError.message : OperandError → String
  | .operandCount mnemonic expected found =>
    s!"{mnemonic} expects {expected} operand(s), got {found}"
  | .notRegister operand => s!"{quoted operand} is not a register"
  | .notLowRegister operand => s!"{quoted operand} must be a low register (R0-R7)"
  | .unexpectedOperand operand expected => s!"{quoted operand} must be {expected}"
  | .missingHash operand => s!"immediate {quoted operand} must start with '#'"
  | .invalidNumber operand => s!"{quoted operand} is not a number"
  | .immediateOutOfRange operand min max => s!"immediate {quoted operand} is outside {min}..={max}"
  | .unaligned operand alignment => s!"{quoted operand} is not a multiple of {alignment}"
  | .zeroScale => "the scale is zero"
  | .malformedMemory operand => s!"malformed memory operand {quoted operand}"
  | .malformedRegisterList operand => s!"malformed register list {quoted operand}"
  | .duplicateRegister operand register =>
    s!"register {register.name} appears twice in {quoted operand}"
  | .registerNotAllowed operand register =>
    s!"register {register.name} is not allowed in {quoted operand}"
  | .unknownLabel label => s!"unknown label {quoted label}"
  | .misalignedTarget label offset alignment =>
    s!"offset {offset} to {quoted label} is not a multiple of {alignment}"
  | .offsetOutOfRange label offset min max =>
    s!"offset {offset} to {quoted label} is outside {min}..={max}"
  | .unknownInstruction mnemonic operands =>
    s!"no form of {mnemonic} accepts operands {quotedList operands}"

end Thumb
