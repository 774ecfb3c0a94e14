import Thumb.Word

namespace Thumb

inductive BusError
  | unmapped (addr : Word)
  | loading (segment : Word) (cause : BusError)
deriving DecidableEq, Repr

namespace BusError

def message : BusError → String
  | .unmapped addr => s!"no device responsible for address {addr.address}"
  | .loading segment _ => s!"loading segment at {segment.address}"

/-- The messages of an error and of what caused it, outermost first. -/
def chain : BusError → List String
  | e@(.unmapped _) => [e.message]
  | e@(.loading _ cause) => e.message :: cause.chain

end BusError

/-- Writes bytes one by one at ascending addresses; those before a refused one stay written. -/
def writeEach {μ : Type} (write : Word → Byte → EStateM BusError μ Unit) :
    Word → List Byte → EStateM BusError μ Unit
  | _, [] => pure ()
  | addr, b :: bs => do
    write addr b
    writeEach write (addr + 1) bs

/-- What a processor asks of its memory. A refused access may have taken effect in part. -/
class Bus (μ : Type) where
  read (w : Width) (addr : Word) : EStateM BusError μ (BitVec w.bits)
  write (w : Width) (addr : Word) (v : BitVec w.bits) : EStateM BusError μ Unit
  clear : μ → μ
  writeBytes (addr : Word) (bytes : List Byte) : EStateM BusError μ Unit :=
    writeEach (fun addr (b : BitVec Width.byte.bits) => write .byte addr b) addr bytes
  /-- Programs bytes, whether or not they are protected from writing. -/
  load (addr : Word) (bytes : List Byte) : EStateM BusError μ Unit :=
    writeBytes addr bytes

end Thumb
