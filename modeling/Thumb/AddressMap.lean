import Thumb.Word

namespace Thumb.AddressMap

def flashOrigin : Word := 0x08000000

/-- The first instruction, after the two words of the vector table. -/
def codeEntry : Word := 0x08000008

def ramOrigin : Word := 0x20000000

def initialSp : Word := 0x20002000

/-- The halfword that ends every code section. -/
def endOfCode : Halfword := 0xFFFF

/-- The largest section: flash ends where RAM begins. -/
def maxSectionSize : Nat :=
  ramOrigin.toNat - flashOrigin.toNat

end Thumb.AddressMap
