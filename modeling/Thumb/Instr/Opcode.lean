import Thumb.Instr.Basic
import Thumb.Pattern

namespace Thumb

def Unary.code : Unary → BitVec 10
  | .sxth => 0b1011001000
  | .sxtb => 0b1011001001
  | .uxth => 0b1011001010
  | .uxtb => 0b1011001011
  | .rev => 0b1011101000

def Shift.code : Shift → BitVec 2
  | .lsl => 0b00
  | .lsr => 0b01
  | .asr => 0b10

def AddSub.code : AddSub → BitVec 1
  | .add => 0
  | .sub => 1

def DataOp.code : DataOp → BitVec 4
  | .and => 0b0000
  | .eor => 0b0001
  | .lsl => 0b0010
  | .lsr => 0b0011
  | .asr => 0b0100
  | .adc => 0b0101
  | .sbc => 0b0110
  | .ror => 0b0111
  | .tst => 0b1000
  | .rsb => 0b1001
  | .cmp => 0b1010
  | .cmn => 0b1011
  | .orr => 0b1100
  | .mul => 0b1101
  | .bic => 0b1110
  | .mvn => 0b1111

def RegTransfer.code : RegTransfer → BitVec 3
  | .str => 0b000
  | .strh => 0b001
  | .strb => 0b010
  | .ldrsb => 0b011
  | .ldr => 0b100
  | .ldrh => 0b101
  | .ldrb => 0b110
  | .ldrsh => 0b111

def Condition.code : Condition → BitVec 4
  | .eq => 0b0000
  | .ne => 0b0001
  | .cs => 0b0010
  | .cc => 0b0011
  | .mi => 0b0100
  | .pl => 0b0101
  | .vs => 0b0110
  | .vc => 0b0111
  | .hi => 0b1000
  | .ls => 0b1001
  | .ge => 0b1010
  | .lt => 0b1011
  | .gt => 0b1100
  | .le => 0b1101
  | .al => 0b1110

/-- The leading bits of loads and stores with an immediate offset, by width. -/
def Width.transferCode : Width → BitVec 4
  | .word => 0b0110
  | .byte => 0b0111
  | .halfword => 0b1000

/-- One halfword of an opcode: its pattern, and the widths of the fields in its free bits. -/
structure Layout where
  pattern : Pattern
  widths : List Nat
deriving DecidableEq, Repr

namespace Form

def layout : Form → List Layout
  | .moveReg => [⟨.leading 0b0000000000#10, [3, 3]⟩]
  | .moveImm => [⟨.leading 0b00100#5, [3, 8]⟩]
  | .moveHigh => [⟨.leading 0b01000110#8, [1, 4, 3]⟩]
  | .unary op => [⟨.leading op.code, [3, 3]⟩]
  | .nop => [⟨.leading 0b1011111100000000#16, []⟩]
  | .shiftImm op => [⟨.leading (0b000#3 ++ op.code), [5, 3, 3]⟩]
  | .immThree op => [⟨.leading (0b000111#6 ++ op.code), [3, 3, 3]⟩]
  | .immEight op => [⟨.leading (0b0011#4 ++ op.code), [3, 8]⟩]
  | .regThree op => [⟨.leading (0b000110#6 ++ op.code), [3, 3, 3]⟩]
  | .adjustSp op => [⟨.leading (0b10110000#8 ++ op.code), [7]⟩]
  | .addSp => [⟨.leading 0b10101#5, [3, 8]⟩]
  | .addHigh => [⟨.leading 0b01000100#8, [1, 4, 3]⟩]
  | .adr => [⟨.leading 0b10100#5, [3, 8]⟩]
  | .compareImm => [⟨.leading 0b00101#5, [3, 8]⟩]
  | .compareHigh => [⟨.leading 0b01000101#8, [1, 4, 3]⟩]
  | .data op => [⟨.leading (0b010000#6 ++ op.code), [3, 3]⟩]
  | .transferSp load => [⟨.leading (0b1001#4 ++ BitVec.ofBool load), [3, 8]⟩]
  | .transferImm load width =>
    [⟨.leading (width.transferCode ++ BitVec.ofBool load), [5, 3, 3]⟩]
  | .transferReg op => [⟨.leading (0b0101#4 ++ op.code), [3, 3, 3]⟩]
  | .loadLiteral => [⟨.leading 0b01001#5, [3, 8]⟩]
  | .push => [⟨.leading 0b1011010#7, [1, 8]⟩]
  | .pop => [⟨.leading 0b1011110#7, [1, 8]⟩]
  | .storeMultiple => [⟨.leading 0b11000#5, [3, 8]⟩]
  | .loadMultiple => [⟨.leading 0b11001#5, [3, 8]⟩]
  | .branch => [⟨.leading 0b11100#5, [11]⟩]
  | .branchLink =>
    [⟨.leading 0b11110#5, [1, 10]⟩, ⟨⟨0b1101000000000000, 0b1101000000000000⟩, [1, 1, 11]⟩]
  | .exchange link =>
    [⟨⟨0b1111111110000111, if link then 0b0100011110000000 else 0b0100011100000000⟩, [4]⟩]
  | .branchIf condition => [⟨.leading (0b1101#4 ++ condition.code), [8]⟩]

def patterns (f : Form) : List Pattern :=
  f.layout.map (·.pattern)

def size (f : Form) : Nat :=
  2 * f.layout.length

/-- Whether the leading halfwords of an opcode fit patterns, one for each. -/
def fits : List Pattern → List Halfword → Bool
  | [], _ => true
  | p :: ps, h :: hs => p.accepts h && fits ps hs
  | _ :: _, [] => false

/-- Whether the leading halfwords of an opcode fit the patterns of the form. -/
def accepts (f : Form) (opcode : List Halfword) : Bool :=
  fits f.patterns opcode

/-- The fields of an opcode, the leftmost one first. -/
def fields (f : Form) (opcode : List Halfword) : List Nat :=
  (f.layout.zip opcode).flatMap fun (u, h) => split u.widths (u.pattern.extract h)

end Form

/-- The halfwords of a layout with the given fields, the leftmost one first. -/
def encodeFields : List Layout → List Nat → List Halfword
  | [], _ => []
  | u :: us, values =>
    u.pattern.encode ((values.take u.widths.length).zip u.widths) ::
      encodeFields us (values.drop u.widths.length)

namespace Instr

/-- A register of all sixteen, as its leading bit and its other three. -/
def highFields (m d : Reg) : List Nat :=
  [d.number.val / 8, m.number.val, d.number.val % 8]

/-- The fields of an instruction, the leftmost one first. The two upper offset bits of a linked
branch are stored as whether they equal its sign. -/
def fields : Instr → List Nat
  | .moveReg m d => [m, d]
  | .moveImm d imm => [d, imm.toNat]
  | .moveHigh m d => highFields m d
  | .unary _ m d => [m, d]
  | .nop => []
  | .shiftImm _ amount m d => [amount.toNat, m, d]
  | .immThree _ imm n d => [imm.toNat, n, d]
  | .immEight _ d imm => [d, imm.toNat]
  | .regThree _ m n d => [m, n, d]
  | .adjustSp _ words => [words.toNat]
  | .addSp d words => [d, words.toNat]
  | .addHigh m d => highFields m d
  | .adr d words => [d, words.toNat]
  | .compareImm n imm => [n, imm.toNat]
  | .compareHigh m n => highFields m n
  | .data _ m d => [m, d]
  | .transferSp _ t words => [t, words.toNat]
  | .transferImm _ _ units n t => [units.toNat, n, t]
  | .transferReg _ m n t => [m, n, t]
  | .loadLiteral t words => [t, words.toNat]
  | .push withLr list => [withLr.toNat, list.toNat]
  | .pop toPc list => [toPc.toNat, list.toNat]
  | .storeMultiple n list => [n, list.toNat]
  | .loadMultiple n list => [n, list.toNat]
  | .branch halfwords => [halfwords.toNat]
  | .branchLink halfwords =>
    let sign := halfwords.getLsbD 23
    [sign.toNat, (halfwords.extractLsb' 11 10).toNat, (halfwords.getLsbD 22 == sign).toNat,
      (halfwords.getLsbD 21 == sign).toNat, (halfwords.extractLsb' 0 11).toNat]
  | .exchange _ m => [m.number]
  | .branchIf _ halfwords => [halfwords.toNat]

def encode (i : Instr) : List Halfword :=
  encodeFields i.form.layout i.fields

end Instr

namespace Form

/-- The instruction of a form with the given fields, counted from the left. -/
def instr (f : Form) (field : Nat → Nat) : Instr :=
  let low (i : Nat) : Fin 8 := Reg.lowOfNat (field i)
  let imm (width i : Nat) : BitVec width := BitVec.ofNat width (field i)
  let flag (i : Nat) : Bool := field i == 1
  let high : Reg := .ofNat (8 * field 0 + field 2)
  let middle : Reg := .ofNat (field 1)
  match f with
  | .moveReg => .moveReg (low 0) (low 1)
  | .moveImm => .moveImm (low 0) (imm 8 1)
  | .moveHigh => .moveHigh middle high
  | .unary op => .unary op (low 0) (low 1)
  | .nop => .nop
  | .shiftImm op => .shiftImm op (imm 5 0) (low 1) (low 2)
  | .immThree op => .immThree op (imm 3 0) (low 1) (low 2)
  | .immEight op => .immEight op (low 0) (imm 8 1)
  | .regThree op => .regThree op (low 0) (low 1) (low 2)
  | .adjustSp op => .adjustSp op (imm 7 0)
  | .addSp => .addSp (low 0) (imm 8 1)
  | .addHigh => .addHigh middle high
  | .adr => .adr (low 0) (imm 8 1)
  | .compareImm => .compareImm (low 0) (imm 8 1)
  | .compareHigh => .compareHigh middle high
  | .data op => .data op (low 0) (low 1)
  | .transferSp load => .transferSp load (low 0) (imm 8 1)
  | .transferImm load width => .transferImm load width (imm 5 0) (low 1) (low 2)
  | .transferReg op => .transferReg op (low 0) (low 1) (low 2)
  | .loadLiteral => .loadLiteral (low 0) (imm 8 1)
  | .push => .push (flag 0) (imm 8 1)
  | .pop => .pop (flag 0) (imm 8 1)
  | .storeMultiple => .storeMultiple (low 0) (imm 8 1)
  | .loadMultiple => .loadMultiple (low 0) (imm 8 1)
  | .branch => .branch (imm 11 0)
  | .branchLink =>
    let sign := flag 0
    .branchLink (BitVec.ofBool sign ++ BitVec.ofBool (flag 2 == sign) ++
      BitVec.ofBool (flag 3 == sign) ++ imm 10 1 ++ imm 11 4)
  | .exchange link => .exchange link (.ofNat (field 0))
  | .branchIf condition => .branchIf condition (imm 8 0)

def decode (f : Form) (opcode : List Halfword) : Instr :=
  let values := f.fields opcode
  f.instr fun i => values.getD i 0

end Form

end Thumb
