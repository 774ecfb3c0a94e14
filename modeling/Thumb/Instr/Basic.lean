import Thumb.Alu
import Thumb.Register.Basic

namespace Thumb

inductive Unary
  | sxth
  | sxtb
  | uxth
  | uxtb
  | rev
deriving DecidableEq, Repr

inductive Shift
  | lsl
  | lsr
  | asr
deriving DecidableEq, Repr

inductive AddSub
  | add
  | sub
deriving DecidableEq, Repr

inductive DataOp
  | and
  | eor
  | lsl
  | lsr
  | asr
  | adc
  | sbc
  | ror
  | tst
  | rsb
  | cmp
  | cmn
  | orr
  | mul
  | bic
  | mvn
deriving DecidableEq, Repr

inductive RegTransfer
  | str
  | strh
  | strb
  | ldrsb
  | ldr
  | ldrh
  | ldrb
  | ldrsh
deriving DecidableEq, Repr

structure Transfer where
  load : Bool
  width : Width
  signed : Bool := false
deriving DecidableEq, Repr

def RegTransfer.transfer : RegTransfer → Transfer
  | .str => { load := false, width := .word }
  | .strh => { load := false, width := .halfword }
  | .strb => { load := false, width := .byte }
  | .ldrsb => { load := true, width := .byte, signed := true }
  | .ldr => { load := true, width := .word }
  | .ldrh => { load := true, width := .halfword }
  | .ldrb => { load := true, width := .byte }
  | .ldrsh => { load := true, width := .halfword, signed := true }

inductive Condition
  | eq
  | ne
  | cs
  | cc
  | mi
  | pl
  | vs
  | vc
  | hi
  | ls
  | ge
  | lt
  | gt
  | le
  | al
deriving DecidableEq, Repr

def Condition.holds (c : Condition) (f : Flags) : Bool :=
  match c with
  | .eq => f.z
  | .ne => !f.z
  | .cs => f.c
  | .cc => !f.c
  | .mi => f.n
  | .pl => !f.n
  | .vs => f.v
  | .vc => !f.v
  | .hi => f.c && !f.z
  | .ls => !f.c || f.z
  | .ge => f.n == f.v
  | .lt => f.n != f.v
  | .gt => !f.z && f.n == f.v
  | .le => f.z || f.n != f.v
  | .al => true

/-- An instruction without its operands: one layout of the opcode bits. -/
inductive Form
  | moveReg
  | moveImm
  | moveHigh
  | unary (op : Unary)
  | nop
  | shiftImm (op : Shift)
  | immThree (op : AddSub)
  | immEight (op : AddSub)
  | regThree (op : AddSub)
  | adjustSp (op : AddSub)
  | addSp
  | addHigh
  | adr
  | compareImm
  | compareHigh
  | data (op : DataOp)
  | transferSp (load : Bool)
  | transferImm (load : Bool) (width : Width)
  | transferReg (op : RegTransfer)
  | loadLiteral
  | push
  | pop
  | storeMultiple
  | loadMultiple
  | branch
  | branchLink
  | exchange (link : Bool)
  | branchIf (condition : Condition)
deriving DecidableEq, Repr

/-- An instruction. The destination stands last among low registers, as it does in the opcode;
offsets are scaled, and a register list is a mask of `R0` to `R7`. -/
inductive Instr
  | moveReg (m d : Fin 8)
  | moveImm (d : Fin 8) (imm : BitVec 8)
  | moveHigh (m d : Reg)
  | unary (op : Unary) (m d : Fin 8)
  | nop
  | shiftImm (op : Shift) (amount : BitVec 5) (m d : Fin 8)
  | immThree (op : AddSub) (imm : BitVec 3) (n d : Fin 8)
  | immEight (op : AddSub) (d : Fin 8) (imm : BitVec 8)
  | regThree (op : AddSub) (m n d : Fin 8)
  | adjustSp (op : AddSub) (words : BitVec 7)
  | addSp (d : Fin 8) (words : BitVec 8)
  | addHigh (m d : Reg)
  | adr (d : Fin 8) (words : BitVec 8)
  | compareImm (n : Fin 8) (imm : BitVec 8)
  | compareHigh (m n : Reg)
  | data (op : DataOp) (m d : Fin 8)
  | transferSp (load : Bool) (t : Fin 8) (words : BitVec 8)
  | transferImm (load : Bool) (width : Width) (units : BitVec 5) (n t : Fin 8)
  | transferReg (op : RegTransfer) (m n t : Fin 8)
  | loadLiteral (t : Fin 8) (words : BitVec 8)
  | push (withLr : Bool) (list : BitVec 8)
  | pop (toPc : Bool) (list : BitVec 8)
  | storeMultiple (n : Fin 8) (list : BitVec 8)
  | loadMultiple (n : Fin 8) (list : BitVec 8)
  | branch (halfwords : BitVec 11)
  | branchLink (halfwords : BitVec 24)
  | exchange (link : Bool) (m : Reg)
  | branchIf (condition : Condition) (halfwords : BitVec 8)
deriving DecidableEq, Repr

def Instr.form : Instr → Form
  | .moveReg .. => .moveReg
  | .moveImm .. => .moveImm
  | .moveHigh .. => .moveHigh
  | .unary op .. => .unary op
  | .nop => .nop
  | .shiftImm op .. => .shiftImm op
  | .immThree op .. => .immThree op
  | .immEight op .. => .immEight op
  | .regThree op .. => .regThree op
  | .adjustSp op .. => .adjustSp op
  | .addSp .. => .addSp
  | .addHigh .. => .addHigh
  | .adr .. => .adr
  | .compareImm .. => .compareImm
  | .compareHigh .. => .compareHigh
  | .data op .. => .data op
  | .transferSp load .. => .transferSp load
  | .transferImm load width .. => .transferImm load width
  | .transferReg op .. => .transferReg op
  | .loadLiteral .. => .loadLiteral
  | .push .. => .push
  | .pop .. => .pop
  | .storeMultiple .. => .storeMultiple
  | .loadMultiple .. => .loadMultiple
  | .branch .. => .branch
  | .branchLink .. => .branchLink
  | .exchange link .. => .exchange link
  | .branchIf condition .. => .branchIf condition

end Thumb
