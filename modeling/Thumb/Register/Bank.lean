import Thumb.Register.Basic
import Thumb.Register.Flags

namespace Thumb

/-- The core registers, the status word, and whether the program counter was written since the
current cycle began. -/
structure Bank where
  regs : Vector Word 16 := Vector.replicate 16 0
  flags : Flags := {}
  pcWritten : Bool := false
deriving DecidableEq, Repr

namespace Bank

def read (b : Bank) (r : Reg) : Word :=
  b.regs[r.number]

def write (b : Bank) (r : Reg) (value : Word) : Bank :=
  { b with regs := b.regs.set r.number value, pcWritten := b.pcWritten || r = .pc }

theorem read_write_self (b : Bank) (r : Reg) (value : Word) : (b.write r value).read r = value :=
  Vector.getElem_set_self r.number.isLt

theorem read_write_of_ne (b : Bank) {r s : Reg} (h : s ≠ r) (value : Word) :
    (b.write r value).read s = b.read s := by
  have hn : (r.number : Nat) ≠ s.number := by
    intro e
    exact h (congrArg Reg.mk (Fin.ext e.symm))
  exact Vector.getElem_set_ne r.number.isLt s.number.isLt hn

def pc (b : Bank) : Word :=
  b.read .pc

def sp (b : Bank) : Word :=
  b.read .sp

/-- A register as an operand; the program counter reads four bytes ahead. -/
def operand (b : Bank) (r : Reg) : Word :=
  if r = .pc then b.pc + 4 else b.read r

def setFlags (b : Bank) (f : Flags) : Bank :=
  { b with flags := f }

/-- Forgets earlier writes of the program counter. -/
def beginCycle (b : Bank) : Bank :=
  { b with pcWritten := false }

/-- Every register with its value, by ascending number. -/
def snapshot (b : Bank) : List (Reg × Word) :=
  Reg.all.map fun r => (r, b.read r)

end Bank

end Thumb
