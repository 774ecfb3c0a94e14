import Thumb.Memory.Region

namespace Thumb

/-- Regions in the order in which they are asked; the first that holds a whole access answers it. -/
structure Memory where
  regions : List Region

namespace Memory

def find? (m : Memory) (addr : Word) (length : Nat) : Option Region :=
  m.regions.find? (·.contains addr length)

/-- Changes the first region that holds an address range. -/
def alterFirst (addr : Word) (length : Nat) (f : Region → Region) : List Region → List Region
  | [] => []
  | r :: rs => if r.contains addr length then f r :: rs else r :: alterFirst addr length f rs

/-- Changes the region that answers for an address range, if there is one. -/
def alter (addr : Word) (length : Nat) (f : Region → Region) : EStateM BusError Memory Unit :=
  fun m =>
    if m.regions.any (·.contains addr length) then .ok () ⟨alterFirst addr length f m.regions⟩
    else .error (.unmapped addr) m

def read (w : Width) (addr : Word) : EStateM BusError Memory (BitVec w.bits) :=
  fun m =>
    match m.find? addr w.bytes with
    | some r => .ok (w.ofBytes (r.fetch addr w.bytes)) m
    | none => .error (.unmapped addr) m

def write (w : Width) (addr : Word) (v : BitVec w.bits) : EStateM BusError Memory Unit :=
  alter addr w.bytes (·.store addr (w.toBytes v))

def clear (m : Memory) : Memory :=
  ⟨m.regions.map Region.clear⟩

end Memory

instance : Bus Memory where
  read := Memory.read
  write := Memory.write
  clear := Memory.clear
  writeBytes addr bytes := Memory.alter addr bytes.length (·.store addr bytes)
  load addr bytes := Memory.alter addr bytes.length (·.program addr bytes)

end Thumb
