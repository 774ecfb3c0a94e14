import Thumb.AddressMap
import Thumb.Instr.Catalogue
import Thumb.Instr.Exec

namespace Thumb.Exec

variable {μ α : Type}

/-- An access of the bus, which may be refused without a trap. -/
def attempt (x : EStateM BusError μ α) : Exec μ (Option α) :=
  fun ⟨regs, bus⟩ =>
    match x bus with
    | .ok a bus => .ok (some a) ⟨regs, bus⟩
    | .error _ bus => .ok none ⟨regs, bus⟩

variable [Bus μ]

/-- The instruction at an address. Its second halfword may lie where nothing answers. -/
def fetch (pc : Word) : Exec μ Decoded := do
  let first : Halfword ← onBus pc (Bus.read .halfword pc)
  if first = AddressMap.endOfCode then
    throw (.endOfCode pc)
  let second : Option Halfword ← attempt (Bus.read .halfword (pc + 2))
  match decode? first second with
  | some d => return d
  | none => throw (.invalidInstruction pc first)

/-- Moves the program counter past an instruction that did not write it. -/
def advance (pc : Word) (size : Nat) : Exec μ Unit :=
  onRegs fun b => if b.pcWritten then b else b.write .pc (pc + BitVec.ofNat 32 size)

/-- Executes the instruction at the program counter. -/
def step : Exec μ Unit := do
  let pc := (← regs).pc
  let d ← fetch pc
  onRegs Bank.beginCycle
  d.form.exec d.opcode
  advance pc d.form.size

end Thumb.Exec
