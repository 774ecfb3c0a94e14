import Thumb.Instr.Opcode

namespace Thumb

namespace Form

/-- Every form. A narrower pattern stands before a wider one that overlaps it, and of the forms of
one mnemonic those with the more particular operands stand first. -/
def all : List Form :=
  [.moveReg, .moveImm, .moveHigh] ++
  [Unary.sxth, .sxtb, .uxth, .uxtb, .rev].map .unary ++
  [.nop] ++
  [Shift.lsl, .lsr, .asr].map .shiftImm ++
  [.immThree .add, .immEight .add, .regThree .add, .immThree .sub, .immEight .sub, .regThree .sub,
    .adjustSp .add, .adjustSp .sub, .addSp, .addHigh, .adr, .compareImm, .compareHigh] ++
  [DataOp.and, .eor, .lsl, .lsr, .asr, .adc, .sbc, .ror, .tst, .rsb, .cmp, .cmn, .orr, .mul, .bic,
    .mvn].map .data ++
  [.transferSp false, .transferSp true,
    .transferImm false .word, .transferImm true .word,
    .transferImm false .byte, .transferImm true .byte,
    .transferImm false .halfword, .transferImm true .halfword] ++
  [RegTransfer.str, .strh, .strb, .ldrsb, .ldr, .ldrh, .ldrb, .ldrsh].map .transferReg ++
  [.loadLiteral, .push, .pop, .storeMultiple, .loadMultiple, .branch, .branchLink,
    .exchange false, .exchange true] ++
  [Condition.eq, .ne, .cs, .cc, .mi, .pl, .vs, .vc, .hi, .ls, .ge, .lt, .gt, .le, .al].map .branchIf

def table : List (Form × List Pattern) :=
  all.map fun f => (f, f.patterns)

/-- The first form whose patterns an opcode fits. -/
def lookup? (opcode : List Halfword) : Option Form :=
  (table.find? fun (_, patterns) => fits patterns opcode).map (·.1)

theorem lookup?_eq_find? (opcode : List Halfword) :
    lookup? opcode = all.find? (·.accepts opcode) := by
  unfold lookup? table
  rw [List.find?_map, Option.map_map]
  exact Option.map_id'

end Form

structure Decoded where
  form : Form
  opcode : List Halfword
deriving DecidableEq, Repr

/-- The opcode that starts with a halfword; the halfword after it may not exist. -/
def decode? (first : Halfword) (second : Option Halfword) : Option Decoded :=
  let opcode := first :: second.toList
  (Form.lookup? opcode).map fun form => ⟨form, opcode.take form.layout.length⟩

end Thumb
