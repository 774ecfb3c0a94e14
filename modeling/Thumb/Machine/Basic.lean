import Thumb.Register.Bank
import Thumb.Trap

namespace Thumb

/-- The registers and what the bus leads to. -/
structure Machine (μ : Type) where
  regs : Bank
  bus : μ

/-- An action on a machine, which a trap may end. What was done before the trap stays done. -/
abbrev Exec (μ α : Type) := EStateM Trap (Machine μ) α

namespace Exec

variable {μ α : Type}

def regs : Exec μ Bank :=
  fun m => .ok m.regs m

def onRegs (f : Bank → Bank) : Exec μ Unit :=
  fun ⟨regs, bus⟩ => .ok () ⟨f regs, bus⟩

/-- An access of the bus at an address, refused as a trap there. -/
def onBus (addr : Word) (x : EStateM BusError μ α) : Exec μ α :=
  fun ⟨regs, bus⟩ =>
    match x bus with
    | .ok a bus => .ok a ⟨regs, bus⟩
    | .error e bus => .error (.bus addr e) ⟨regs, bus⟩

variable [Bus μ]

def checkAligned (w : Width) (addr : Word) : Exec μ Unit :=
  if addr.toNat % w.bytes = 0 then pure () else throw (.unaligned addr)

/-- The value at an aligned address, extended with zeros. -/
def load (w : Width) (addr : Word) : Exec μ Word := do
  checkAligned w addr
  let v ← onBus addr (Bus.read w addr)
  return v.setWidth 32

/-- Stores the low bits of a word at an aligned address. -/
def store (w : Width) (addr : Word) (value : Word) : Exec μ Unit := do
  checkAligned w addr
  onBus addr (Bus.write w addr (value.setWidth w.bits))

/-- Stores registers as consecutive words. -/
def storeAll : Word → List Reg → Exec μ Unit
  | _, [] => pure ()
  | addr, r :: rs => do
    store .word addr ((← regs).read r)
    storeAll (addr + 4) rs

/-- Loads registers from consecutive words; bit 0 of the program counter is dropped. -/
def loadAll : Word → List Reg → Exec μ Unit
  | _, [] => pure ()
  | addr, r :: rs => do
    let value ← load .word addr
    onRegs (·.write r (if r = .pc then value &&& ~~~1 else value))
    loadAll (addr + 4) rs

end Exec

end Thumb
