import Thumb.Instr.Opcode
import Thumb.Machine.Basic

namespace Thumb

def Unary.apply (op : Unary) (v : Word) : Word :=
  match op with
  | .sxth => (v.setWidth 16).signExtend 32
  | .sxtb => (v.setWidth 8).signExtend 32
  | .uxth => (v.setWidth 16).setWidth 32
  | .uxtb => (v.setWidth 8).setWidth 32
  | .rev => Width.word.ofBytes (Width.word.toBytes v).reverse

/-- A shift by the amount in a field, where a right shift by zero means one by 32. -/
def Shift.apply (op : Shift) (v : Word) (amount : BitVec 5) : Alu.Shifted :=
  let rightAmount := if amount = 0 then 32 else amount.toNat
  match op with
  | .lsl => Alu.lsl v amount.toNat
  | .lsr => Alu.lsr v rightAmount
  | .asr => Alu.asr v rightAmount

def AddSub.apply (op : AddSub) (a b : Word) : Alu.Result :=
  match op with
  | .add => Alu.add a b
  | .sub => Alu.sub a b

/-- The result of an operation on the values of the two registers, if it has one, and the flags
after it. Shifts take the low byte of the second value as their amount. -/
def DataOp.apply (op : DataOp) (flags : Flags) (a b : Word) : Option Word × Flags :=
  let logical (v : Word) := (some v, (Alu.nz v).setNz flags)
  let shifted (s : Alu.Shifted) := (some s.value, s.setFlags flags)
  let full (r : Alu.Result) := (some r.value, r.setNzcv flags)
  let amount := b.toNat % 256
  match op with
  | .and => logical (a &&& b)
  | .eor => logical (a ^^^ b)
  | .lsl => shifted (Alu.lsl a amount)
  | .lsr => shifted (Alu.lsr a amount)
  | .asr => shifted (Alu.asr a amount)
  | .adc => full (Alu.adc a b flags.c)
  | .sbc => full (Alu.sbc a b flags.c)
  | .ror => shifted (Alu.ror a amount)
  | .tst => (none, (Alu.nz (a &&& b)).setNz flags)
  | .rsb => full (Alu.sub 0 b)
  | .cmp => (none, (Alu.sub a b).setNzcv flags)
  | .cmn => (none, (Alu.add a b).setNzcv flags)
  | .orr => logical (a ||| b)
  | .mul => logical (Alu.mul a b).value
  | .bic => logical (a &&& ~~~b)
  | .mvn => logical (~~~b)

namespace Bank

/-- The program counter drops bit 0 of what is written to it. -/
def writeAny (b : Bank) (r : Reg) (value : Word) : Bank :=
  b.write r (if r = .pc then value &&& ~~~1 else value)

/-- The base of addresses relative to the program counter. -/
def literalBase (b : Bank) : Word :=
  (b.pc + 4) &&& ~~~3

/-- Jumps by a number of halfwords from four bytes ahead. -/
def jump {n : Nat} (b : Bank) (halfwords : BitVec n) : Bank :=
  b.write .pc (b.pc + 4 + halfwords.signExtend 32 <<< 1)

/-- Jumps to an address whose bit 0 is dropped. -/
def jumpTo (b : Bank) (addr : Word) : Bank :=
  b.write .pc (addr &&& ~~~1)

end Bank

/-- The low registers of a mask, by ascending number. -/
def listed (mask : BitVec 8) : List Reg :=
  ((List.finRange 8).filter fun (i : Fin 8) => mask.getLsb i).map Reg.low

/-- A count of words, in bytes. -/
def wordOffset {n : Nat} (words : BitVec n) : Word :=
  BitVec.ofNat 32 (4 * words.toNat)

namespace Exec

variable {μ : Type} [Bus μ]

/-- Moves a low register to or from an address. -/
def transfer (k : Transfer) (addr : Word) (t : Fin 8) : Exec μ Unit := do
  if k.load then
    let value ← load k.width addr
    onRegs (·.write (.low t)
      (if k.signed then (value.setWidth k.width.bits).signExtend 32 else value))
  else
    store k.width addr ((← regs).read (.low t))

/-- Moves a list of registers, and steps the base register over the words moved. -/
def multiple (load : Bool) (n : Fin 8) (mask : BitVec 8) : Exec μ Unit := do
  let list := listed mask
  let base := (← regs).read (.low n)
  if load then loadAll base list else storeAll base list
  if !load || !list.contains (.low n) then
    onRegs (·.write (.low n) (base + BitVec.ofNat 32 (4 * list.length)))

/-- Stores registers below the stack pointer, which moves down to the first. -/
def push (list : List Reg) : Exec μ Unit := do
  let base := (← regs).sp - BitVec.ofNat 32 (4 * list.length)
  storeAll base list
  onRegs (·.write .sp base)

/-- Loads registers from the stack pointer, which moves up past the last. -/
def pop (list : List Reg) : Exec μ Unit := do
  let base := (← regs).sp
  loadAll base list
  onRegs (·.write .sp (base + BitVec.ofNat 32 (4 * list.length)))

end Exec

namespace Instr

variable {μ : Type} [Bus μ]

open Exec

/-- The effect of an instruction that only touches registers. -/
def effect (i : Instr) (b : Bank) : Bank :=
  let low (r : Fin 8) : Word := b.read (.low r)
  let logical (d : Fin 8) (v : Word) := (b.write (.low d) v).setFlags ((Alu.nz v).setNz b.flags)
  let full (d : Fin 8) (r : Alu.Result) :=
    (b.write (.low d) r.value).setFlags (r.setNzcv b.flags)
  match i with
  | .moveReg m d => logical d (low m)
  | .moveImm d imm => logical d (imm.setWidth 32)
  | .moveHigh m d => b.writeAny d (b.operand m)
  | .unary op m d => b.write (.low d) (op.apply (low m))
  | .shiftImm op amount m d =>
    let s := op.apply (low m) amount
    (b.write (.low d) s.value).setFlags (s.setFlags b.flags)
  | .immThree op imm n d => full d (op.apply (low n) (imm.setWidth 32))
  | .immEight op d imm => full d (op.apply (low d) (imm.setWidth 32))
  | .regThree op m n d => full d (op.apply (low n) (low m))
  | .adjustSp .add words => b.write .sp (b.sp + wordOffset words)
  | .adjustSp .sub words => b.write .sp (b.sp - wordOffset words)
  | .addSp d words => b.write (.low d) (b.sp + wordOffset words)
  | .addHigh m d => b.writeAny d (b.operand d + b.operand m)
  | .adr d words => b.write (.low d) (b.literalBase + wordOffset words)
  | .compareImm n imm => b.setFlags ((Alu.sub (low n) (imm.setWidth 32)).setNzcv b.flags)
  | .compareHigh m n => b.setFlags ((Alu.sub (b.operand n) (b.operand m)).setNzcv b.flags)
  | .data op m d =>
    let (value, flags) := op.apply b.flags (low d) (low m)
    (value.elim b (b.write (.low d))).setFlags flags
  | .branch halfwords => b.jump halfwords
  | .branchLink halfwords => (b.write .lr ((b.pc + 4) ||| 1)).jump halfwords
  | .exchange link m =>
    (if link then b.write .lr ((b.pc + 2) ||| 1) else b).jumpTo (b.operand m)
  | .branchIf condition halfwords => if condition.holds b.flags then b.jump halfwords else b
  | _ => b

/-- Executes an instruction at the address in the program counter. -/
def exec (i : Instr) : Exec μ Unit :=
  match i with
  | .transferSp load t words => do
    transfer { load, width := .word } ((← regs).sp + wordOffset words) t
  | .transferImm load width units n t => do
    let base := (← regs).read (.low n)
    transfer { load, width } (base + BitVec.ofNat 32 (width.bytes * units.toNat)) t
  | .transferReg op m n t => do
    let b ← regs
    transfer op.transfer (b.read (.low n) + b.read (.low m)) t
  | .loadLiteral t words => do
    transfer { load := true, width := .word } ((← regs).literalBase + wordOffset words) t
  | .push withLr list => Exec.push (listed list ++ if withLr then [.lr] else [])
  | .pop toPc list => Exec.pop (listed list ++ if toPc then [.pc] else [])
  | .storeMultiple n list => multiple false n list
  | .loadMultiple n list => multiple true n list
  | i => onRegs i.effect

end Instr

def Form.exec {μ : Type} [Bus μ] (f : Form) (opcode : List Halfword) : Exec μ Unit :=
  (f.decode opcode).exec

end Thumb
