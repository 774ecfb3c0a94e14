import Thumb.Memory.Bus

namespace Thumb

inductive Trap
  | invalidInstruction (pc : Word) (opcode : Halfword)
  | unaligned (addr : Word)
  | bus (addr : Word) (cause : BusError)
  | endOfCode (pc : Word)
  | running
deriving DecidableEq, Repr

namespace Trap

def message : Trap → String
  | .invalidInstruction pc opcode =>
    s!"Invalid instruction {Width.halfword.text opcode} at {pc.address}"
  | .unaligned addr => s!"Unaligned access at {addr.address}"
  | .bus addr cause => s!"Bus error at {addr.address}: {cause.message}"
  | .endOfCode pc => s!"End of code reached at {pc.address}"
  | .running => "Processor is running"

/-- The messages of a trap and of what caused it, outermost first. -/
def chain (t : Trap) : List String :=
  match t with
  | .bus _ cause => t.message :: cause.chain
  | _ => [t.message]

end Trap

end Thumb
