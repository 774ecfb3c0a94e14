import Thumb.Instr.Catalogue
import Thumb.Operand.Label

namespace Thumb

def Unary.mnemonic : Unary → String
  | .sxth => "SXTH"
  | .sxtb => "SXTB"
  | .uxth => "UXTH"
  | .uxtb => "UXTB"
  | .rev => "REV"

def Shift.mnemonic : Shift → String
  | .lsl => "LSLS"
  | .lsr => "LSRS"
  | .asr => "ASRS"

def AddSub.mnemonic : AddSub → String
  | .add => "ADDS"
  | .sub => "SUBS"

def DataOp.mnemonic : DataOp → String
  | .and => "ANDS"
  | .eor => "EORS"
  | .lsl => "LSLS"
  | .lsr => "LSRS"
  | .asr => "ASRS"
  | .adc => "ADCS"
  | .sbc => "SBCS"
  | .ror => "RORS"
  | .tst => "TST"
  | .rsb => "RSBS"
  | .cmp => "CMP"
  | .cmn => "CMN"
  | .orr => "ORRS"
  | .mul => "MULS"
  | .bic => "BICS"
  | .mvn => "MVNS"

def RegTransfer.mnemonic : RegTransfer → String
  | .str => "STR"
  | .strh => "STRH"
  | .strb => "STRB"
  | .ldrsb => "LDRSB"
  | .ldr => "LDR"
  | .ldrh => "LDRH"
  | .ldrb => "LDRB"
  | .ldrsh => "LDRSH"

def Condition.mnemonic : Condition → String
  | .eq => "BEQ"
  | .ne => "BNE"
  | .cs => "BCS"
  | .cc => "BCC"
  | .mi => "BMI"
  | .pl => "BPL"
  | .vs => "BVS"
  | .vc => "BVC"
  | .hi => "BHI"
  | .ls => "BLS"
  | .ge => "BGE"
  | .lt => "BLT"
  | .gt => "BGT"
  | .le => "BLE"
  | .al => "BAL"

/-- The mnemonic of a load or store with an immediate offset. -/
def Width.transferMnemonic (load : Bool) : Width → String
  | .word => if load then "LDR" else "STR"
  | .byte => if load then "LDRB" else "STRB"
  | .halfword => if load then "LDRH" else "STRH"

/-- The operand shapes of the operations on two low registers. -/
inductive DataShape
  /-- `Rdn, Rm`, or `Rdn, Rdn, Rm`. -/
  | pair
  /-- `Rn, Rm`. -/
  | two
  /-- `Rn, Rm` with both registers low. -/
  | twoLow
  /-- `Rd, Rn, #0`. -/
  | negate
  /-- `Rdm, Rn`, or `Rdm, Rn, Rdm`. -/
  | multiply
deriving DecidableEq, Repr

def DataOp.shape : DataOp → DataShape
  | .tst | .cmn | .mvn => .two
  | .cmp => .twoLow
  | .rsb => .negate
  | .mul => .multiply
  | _ => .pair

namespace Form

def name : Form → String
  | .moveReg | .moveImm => "MOVS"
  | .moveHigh => "MOV"
  | .unary op => op.mnemonic
  | .nop => "NOP"
  | .shiftImm op => op.mnemonic
  | .immThree op | .immEight op | .regThree op => op.mnemonic
  | .adjustSp .add | .addSp | .addHigh => "ADD"
  | .adjustSp .sub => "SUB"
  | .adr => "ADR"
  | .compareImm | .compareHigh => "CMP"
  | .data op => op.mnemonic
  | .transferSp load => Width.word.transferMnemonic load
  | .transferImm load width => width.transferMnemonic load
  | .transferReg op => op.mnemonic
  | .loadLiteral => "LDR"
  | .push => "PUSH"
  | .pop => "POP"
  | .storeMultiple => "STM"
  | .loadMultiple => "LDM"
  | .branch => "B"
  | .branchLink => "BL"
  | .exchange link => if link then "BLX" else "BX"
  | .branchIf condition => condition.mnemonic

def aliases : Form → List String
  | .storeMultiple => ["STMIA", "STMEA"]
  | .loadMultiple => ["LDMIA", "LDMFD"]
  | .branchIf .cs => ["BHS"]
  | .branchIf .cc => ["BLO"]
  | _ => []

/-- Whether a form answers to a mnemonic, which is in upper case. -/
def answersTo (f : Form) (mnemonic : String) : Bool :=
  mnemonic == f.name || f.aliases.contains mnemonic

/-- Whether the opcode depends on where labels are. -/
def needsLabels : Form → Bool
  | .adr | .loadLiteral | .branch | .branchLink | .branchIf _ => true
  | _ => false

open Operand

def isSp (op : String) : Bool :=
  Reg.parse? op == some .sp

/-- An operand without the marks `!` after it. -/
def dropMarks (cs : List Char) : List Char :=
  (cs.reverse.dropWhile (· == '!')).reverse

def takesLabel : List String → Bool
  | [label] => isLabel label
  | _ => false

def isWide (imm : String) : Bool :=
  match immediate imm with
  | .ok i => 7 < i
  | .error _ => false

def dataShapeTakes : DataShape → List String → Bool
  | .pair, [d, n, m] => isRegister m && sameRegister d n
  | .pair, [d, m] | .two, [d, m] | .multiply, [d, m] => isRegister d && isRegister m
  | .twoLow, [n, m] => isLowRegister n && isLowRegister m
  | .negate, [d, n, zero] => isRegister d && isRegister n && isImmediate zero
  | .multiply, [d, n, m] => isRegister d && isRegister n && isRegister m
  | _, _ => false

/-- Whether the operands have the shape of a transfer with the given kind of address. -/
def transferTakes (address : Address → Bool) : List String → Bool
  | [t, mem] => isRegister t && (address? mem).any address
  | _ => false

/-- Whether a form takes operands of this shape; their values are not looked at. -/
def takes (f : Form) (operands : List String) : Bool :=
  match f, operands with
  | .moveReg, [d, m] | .moveHigh, [d, m] => isRegister d && isRegister m
  | .moveImm, [_, imm] => isImmediate imm
  | .unary _, [_, _] => true
  | .nop, [] => true
  | .shiftImm _, [d, imm] => isRegister d && isImmediate imm
  | .shiftImm _, [d, m, imm] => isRegister d && isRegister m && isImmediate imm
  | .immThree _, [d, n, imm] =>
    isRegister d && isRegister n && isImmediate imm && !(sameRegister d n && isWide imm)
  | .immEight _, [d, imm] => isRegister d && isImmediate imm
  | .immEight _, [d, n, imm] => sameRegister d n && isImmediate imm
  | .regThree _, [d, m] => isRegister d && isRegister m
  | .regThree _, [d, n, m] => isRegister d && isRegister n && isRegister m
  | .adjustSp _, [s, imm] => isSp s && isImmediate imm
  | .adjustSp _, [s, t, imm] => isSp s && isSp t && isImmediate imm
  | .addSp, [d, s, imm] => isRegister d && isSp s && isImmediate imm
  | .addHigh, [d, m] => isRegister d && isRegister m
  | .addHigh, [d, n, m] => sameRegister d n && isRegister m
  | .adr, [d, label] | .loadLiteral, [d, label] => isRegister d && isLabel label
  | .compareImm, [_, imm] => isImmediate imm
  | .compareHigh, [n, m] =>
    isRegister n && isRegister m && !(isLowRegister n && isLowRegister m)
  | .data op, operands => dataShapeTakes op.shape operands
  | .transferSp _, operands =>
    transferTakes (fun a => a.base == .sp && !a.offset.isRegister) operands
  | .transferImm .., operands =>
    transferTakes (fun a => a.base != .sp && !a.offset.isRegister) operands
  | .transferReg _, operands => transferTakes (·.offset.isRegister) operands
  | .push, [list] | .pop, [list] => isRegisterList list
  | .storeMultiple, [n, list] | .loadMultiple, [n, list] =>
    isRegister (String.ofList (dropMarks (Text.trimEnd n.toList))) && isRegisterList list
  | .branch, operands | .branchLink, operands | .branchIf _, operands => takesLabel operands
  | .exchange _, [m] => isRegister m
  | _, _ => false

/-- Whether a form can be what a mnemonic and its operands mean. -/
def canEncode (f : Form) (mnemonic : String) (operands : List String) : Bool :=
  f.answersTo mnemonic && f.takes operands

def listMask (list : List Reg) : BitVec 8 :=
  BitVec.ofBoolListLE ((List.finRange 8).map fun i => list.contains (.low i))

/-- A list of low registers and of possibly one other. -/
def lowList (op : String) (extra : Option Reg) : Except OperandError (List Reg) := do
  let list ← registerList op
  match list.find? fun r => !r.isLow && some r != extra with
  | some r => throw (.registerNotAllowed op r)
  | none => return list

def operandCount : Form → Nat
  | .nop => 0
  | .push | .pop | .branch | .branchLink | .exchange _ | .branchIf _ => 1
  | .shiftImm _ | .immThree _ | .regThree _ | .addSp | .data .rsb => 3
  | _ => 2

def countError (f : Form) (operands : List String) : OperandError :=
  .operandCount f.name f.operandCount operands.length

/-- A constant shift amount, which is from 0 to 31 to the left and from 1 to 32 to the right. -/
def shiftAmount (op : Shift) (imm : String) : Except OperandError (BitVec 5) := do
  let amount ← immediate imm
  let (min, max) : Int × Int := if op = .lsl then (0, 31) else (1, 32)
  if amount < min ∨ max < amount then
    throw (.immediateOutOfRange imm min max)
  return BitVec.ofInt 5 amount

/-- The registers of an operation on two low registers, the first of which is its destination. -/
def dataRegisters (f : Form) (op : DataOp) (operands : List String) :
    Except OperandError (Fin 8 × Fin 8) := do
  match op.shape, operands with
  | .pair, [d, m] | .pair, [d, _, m] | .two, [d, m] | .twoLow, [d, m] | .multiply, [d, m] =>
    return (← lowRegister d, ← lowRegister m)
  | .negate, [d, n, zero] =>
    if (← immediate zero) ≠ 0 then
      throw (.unexpectedOperand zero "#0")
    return (← lowRegister d, ← lowRegister n)
  | .multiply, [first, n, m] =>
    let d ← lowRegister first
    let n ← lowRegister n
    let m ← lowRegister m
    if d = m then return (d, n)
    else if d = n then return (d, m)
    else throw (.unexpectedOperand first "the same register as a source")
  | _, _ => throw (f.countError operands)

def low (r : Reg) : Except OperandError (Fin 8) :=
  lowRegister r.name

/-- A transfer at a register plus an immediate offset; a form with a register offset keeps the low
bits of the immediate. -/
def immediateTransfer (width : Width) (a : Address) : Except OperandError (Fin 8 × Nat) :=
  return (← low a.base, ← a.scaledOffset 5 width.bytes)

/-- The base register of a multiple transfer and the list. The mark `!` stands after the base
exactly when the transfer changes it: always in a store, and in a load that does not load the
base. -/
def multipleOperands (load : Bool) (base list : String) :
    Except OperandError (Fin 8 × BitVec 8) := do
  let cs := Text.trim base.toList
  let n ← lowRegister (String.ofList (dropMarks cs))
  let mask := listMask (← lowList list none)
  let expected := !load || !mask.getLsb n
  if (cs.getLast? == some '!') ≠ expected then
    let name := (Reg.low n).name
    throw (.unexpectedOperand base (if expected then name ++ "!" else name))
  return (n, mask)

/-- The instruction that a form makes of its operands. Labels count as zero bytes away while their
addresses are unknown. -/
def parse (f : Form) (operands : List String) (labels : Option Labels) :
    Except OperandError Instr := do
  match f, operands with
  | .moveReg, [d, m] =>
    let d ← lowRegister d
    return .moveReg (← lowRegister m) d
  | .moveImm, [d, imm] => return .moveImm (← lowRegister d) (.ofNat 8 (← unsignedImmediate imm 8))
  | .moveHigh, [d, m] =>
    let d ← register d
    return .moveHigh (← register m) d
  | .unary op, [d, m] =>
    let d ← lowRegister d
    return .unary op (← lowRegister m) d
  | .nop, [] => return .nop
  | .shiftImm op, [d, imm] =>
    let d ← lowRegister d
    return .shiftImm op (← shiftAmount op imm) d d
  | .shiftImm op, [d, m, imm] =>
    let d ← lowRegister d
    let m ← lowRegister m
    return .shiftImm op (← shiftAmount op imm) m d
  | .immThree op, [d, n, imm] =>
    let d ← lowRegister d
    let n ← lowRegister n
    return .immThree op (.ofNat 3 (← unsignedImmediate imm 3)) n d
  | .immEight op, [d, imm] | .immEight op, [d, _, imm] =>
    return .immEight op (← lowRegister d) (.ofNat 8 (← unsignedImmediate imm 8))
  | .regThree op, [d, m] =>
    let d ← lowRegister d
    return .regThree op (← lowRegister m) d d
  | .regThree op, [d, n, m] =>
    let d ← lowRegister d
    let n ← lowRegister n
    return .regThree op (← lowRegister m) n d
  | .adjustSp op, [s, imm] | .adjustSp op, [s, _, imm] =>
    exactRegister s .sp
    return .adjustSp op (.ofNat 7 (← scaledImmediate imm 7 4))
  | .addSp, [d, s, imm] =>
    let d ← lowRegister d
    exactRegister s .sp
    return .addSp d (.ofNat 8 (← scaledImmediate imm 8 4))
  | .addHigh, [d, m] | .addHigh, [d, _, m] =>
    let d ← register d
    return .addHigh (← register m) d
  | .adr, [d, label] =>
    return .adr (← lowRegister d) (.ofNat 8 (← alignedLabelField label labels 8))
  | .compareImm, [n, imm] =>
    return .compareImm (← lowRegister n) (.ofNat 8 (← unsignedImmediate imm 8))
  | .compareHigh, [n, m] =>
    let n ← register n
    return .compareHigh (← register m) n
  | .data op, operands =>
    let (d, m) ← f.dataRegisters op operands
    return .data op m d
  | .transferSp load, [t, mem] =>
    let t ← lowRegister t
    return .transferSp load t (.ofNat 8 (← (← address mem).scaledOffset 8 4))
  | .transferImm load width, [t, mem] =>
    let t ← lowRegister t
    let (n, units) ← immediateTransfer width (← address mem)
    return .transferImm load width (.ofNat 5 units) n t
  | .transferReg op, [t, mem] =>
    let t ← lowRegister t
    let a ← address mem
    match a.offset with
    | .register m =>
      let m ← low m
      return .transferReg op m (← low a.base) t
    | _ =>
      let (n, units) ← immediateTransfer op.transfer.width a
      return .transferReg op (Reg.lowOfNat units) n t
  | .loadLiteral, [t, label] =>
    return .loadLiteral (← lowRegister t) (.ofNat 8 (← alignedLabelField label labels 8))
  | .push, [list] =>
    let list ← lowList list (some .lr)
    return .push (list.contains .lr) (listMask list)
  | .pop, [list] =>
    let list ← lowList list (some .pc)
    return .pop (list.contains .pc) (listMask list)
  | .storeMultiple, [base, list] =>
    let (n, mask) ← multipleOperands false base list
    return .storeMultiple n mask
  | .loadMultiple, [base, list] =>
    let (n, mask) ← multipleOperands true base list
    return .loadMultiple n mask
  | .branch, [label] => return .branch (.ofNat 11 (← signedLabelField label labels 11 2))
  | .branchLink, [label] => return .branchLink (.ofNat 24 (← signedLabelField label labels 24 2))
  | .exchange link, [m] => return .exchange link (← register m)
  | .branchIf condition, [label] =>
    return .branchIf condition (.ofNat 8 (← signedLabelField label labels 8 2))
  | f, operands => throw (f.countError operands)

def encode (f : Form) (operands : List String) (labels : Option Labels) :
    Except OperandError (List Halfword) := do
  return (← f.parse operands labels).encode

/-- The first form that a mnemonic in either case can mean with these operands. -/
def select (mnemonic : String) (operands : List String) : Except OperandError Form :=
  let mnemonic := String.ofList (Text.upper mnemonic.toList)
  match all.find? (·.canEncode mnemonic operands) with
  | some f => .ok f
  | none => .error (.unknownInstruction mnemonic operands)

/-- Whether some form answers to a word in either case. -/
def isMnemonic (word : String) : Bool :=
  all.any (·.answersTo (String.ofList (Text.upper word.toList)))

end Form

def encodeInstruction (mnemonic : String) (operands : List String) (labels : Option Labels) :
    Except OperandError (List Halfword) := do
  (← Form.select mnemonic operands).encode operands labels

end Thumb
