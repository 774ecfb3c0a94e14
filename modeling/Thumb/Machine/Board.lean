import Thumb.Executable.Basic
import Thumb.Machine.Processor
import Thumb.Machine.Step

namespace Thumb

structure Board where
  cpu : Processor
  memory : Memory
  image : Option Executable := none

/-- Why a run ended without a trap. -/
inductive Stop
  /-- The end marker was fetched. -/
  | endOfCode (pc : Word)
  /-- The number of cycles ran out. -/
  | stepLimit
deriving DecidableEq, Repr

inductive ResetError
  | trap (t : Trap)
  | outsideContent
deriving DecidableEq, Repr

namespace Board

def ofConfig (c : Config) : Board :=
  { cpu := .ofConfig c, memory := .ofConfig c }

/-- Puts the executable into memory. -/
def program (e : Executable) : EStateM ResetError Board Unit :=
  fun b =>
    match e.load b.memory with
    | .ok () memory => .ok () { b with memory }
    | .error (.bus cause) memory =>
      .error (.trap (.bus b.cpu.config.flashOrigin cause)) { b with memory }
    | .error .outsideContent memory => .error .outsideContent { b with memory }

/-- Clears memory and registers, and loads the executable again. A running processor refuses. -/
def reset : EStateM ResetError Board Unit :=
  fun b =>
    if b.cpu.activity = .running then .error (.trap .running) b
    else
      let b := { b with cpu := b.cpu.reset, memory := b.memory.clear }
      match b.image with
      | none => .ok () b
      | some e => program e b

/-- Keeps an executable and resets the board with it. -/
def load (e : Executable) : EStateM ResetError Board Unit :=
  fun b => reset { b with image := some e }

/-- Executes one instruction, whether or not the processor is running. -/
def step : EStateM Trap Board Unit :=
  fun ⟨cpu, memory, image⟩ =>
    match Exec.step ⟨cpu.regs, memory⟩ with
    | .ok () ⟨regs, memory⟩ => .ok () ⟨cpu.afterCycle regs, memory, image⟩
    | .error t ⟨regs, memory⟩ => .error t ⟨{ cpu with regs }, memory, image⟩

def start (b : Board) : Board :=
  { b with cpu := b.cpu.start }

def halt (b : Board) : Board :=
  { b with cpu := b.cpu.halt }

/-- Executes one instruction if the processor is running; a trap halts it. -/
def cycle : EStateM Trap Board Bool :=
  fun b =>
    if b.cpu.activity ≠ .running then .ok false b
    else
      match step b with
      | .ok () b => .ok true b
      | .error t b => .error t b.halt

/-- So many cycles, or fewer if a trap comes first. -/
def cycles : Nat → EStateM Trap Board Stop
  | 0 => fun b => .ok .stepLimit b.halt
  | limit + 1 => fun b =>
    match cycle b with
    | .ok _ b => cycles limit b
    | .error (.endOfCode pc) b => .ok (.endOfCode pc) b
    | .error t b => .error t b

/-- Starts the processor and runs up to the end marker, a trap, or the limit of cycles. -/
def run (limit : Nat) : EStateM Trap Board Stop :=
  fun b => cycles limit b.start

/-- Runs within the configured number of cycles. -/
def runToEnd : EStateM Trap Board Stop :=
  fun b => run b.cpu.config.stepLimit b

def currentLine (b : Board) : Option Nat :=
  b.image.bind (·.lineAt b.cpu.regs.pc)

end Board

end Thumb
