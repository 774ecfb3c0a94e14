import Thumb.Number
import Thumb.Operand.Error

namespace Thumb

/-- What is wrong with a statement by itself. -/
inductive StatementError
  | unknownMnemonic (word : String)
  | invalidLabel (name : String)
  | malformedOperands (text : String)
  | labelledArea
  | namelessConstant
  | constantOperands
  | notNumber (text : String)
  | areaOperands
  | areaKind (kind : String)
  | noValues (mnemonic : String)
  | malformedSpace (mnemonic : String)
  | notByteCount (text : String)
  | sectionTooLarge (mnemonic text : String) (limit : Nat)
  | notPowerOfTwo (text : String)
  | alignOperands
  | notDatum (operand : String)
  | instructionAsDatum
deriving DecidableEq, Repr

def StatementError.message : StatementError → String
  | .unknownMnemonic word => s!"unknown mnemonic `{word}`"
  | .invalidLabel name => s!"invalid label `{name}`"
  | .malformedOperands text => s!"malformed operands `{text}`"
  | .labelledArea => "AREA takes no label"
  | .namelessConstant => "EQU needs a name"
  | .constantOperands => "EQU takes one value"
  | .notNumber text => s!"`{text}` is not a number"
  | .areaOperands => "AREA needs a name and CODE or DATA"
  | .areaKind kind => s!"unknown area kind `{kind}`"
  | .noValues mnemonic => s!"{mnemonic} needs at least one value"
  | .malformedSpace mnemonic => s!"malformed {mnemonic}"
  | .notByteCount text => s!"`{text}` is not a byte count"
  | .sectionTooLarge mnemonic text limit =>
    s!"{mnemonic} {text} overflows the section ({Text.hexMarked 1 limit} bytes at most)"
  | .notPowerOfTwo text => s!"`{text}` is not a power of two"
  | .alignOperands => "ALIGN takes at most one value"
  | .notDatum operand => s!"`{operand}` is neither a number nor a symbol"
  | .instructionAsDatum => "data relocation refers to an instruction"

/-- Why assembling failed. Lines count from zero here and from one in messages. -/
inductive AssemblyError
  | statement (line : Nat) (cause : StatementError)
  | instruction (line : Nat) (mnemonic : String) (operands : List String) (cause : OperandError)
  | duplicateSymbol (line : Nat) (name : String)
  | unresolvedSymbol (line : Nat) (name : String)
  | value (line : Nat) (mnemonic operand : String) (cause : ValueError)
  | missingSection (index : Nat)
  | sectionOverflow (name : String)
  /-- A section or a relocation reaches beyond the bytes that there are. -/
  | outsideContent
deriving DecidableEq, Repr

namespace AssemblyError

def line? : AssemblyError → Option Nat
  | .statement line _ => some line
  | .instruction line .. => some line
  | .duplicateSymbol line _ => some line
  | .unresolvedSymbol line _ => some line
  | .value line .. => some line
  | .missingSection _ => none
  | .sectionOverflow _ => none
  | .outsideContent => none

def message : AssemblyError → String
  | .statement line cause => s!"line {line + 1}: {cause.message}"
  | .instruction line mnemonic operands cause =>
    let operands := ", ".intercalate operands
    s!"line {line + 1}: {mnemonic} {operands}: {cause.message}"
  | .duplicateSymbol line name => s!"line {line + 1}: symbol `{name}` is already defined"
  | .unresolvedSymbol line name => s!"line {line + 1}: undefined symbol `{name}`"
  | .value line mnemonic operand cause =>
    s!"line {line + 1}: {mnemonic} operand `{operand}`: {cause.message}"
  | .missingSection index => s!"no section with index {index}"
  | .sectionOverflow name => s!"section `{name}` does not fit the address space"
  | .outsideContent => "image refers to bytes outside its content"

/-- The messages of an error and of what caused it, outermost first. -/
def chain (e : AssemblyError) : List String :=
  match e with
  | .instruction _ _ _ cause => [e.message, cause.message]
  | .value _ _ _ cause => [e.message, cause.message]
  | _ => [e.message]

end AssemblyError

end Thumb
