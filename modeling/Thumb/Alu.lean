import Thumb.Register.Flags

namespace Thumb.Alu

structure Result where
  value : Word
  n : Bool
  z : Bool
  c : Bool
  v : Bool
deriving DecidableEq, Repr

namespace Result

/-- Writes all four flags. -/
def setNzcv (r : Result) (f : Flags) : Flags :=
  { f with n := r.n, z := r.z, c := r.c, v := r.v }

/-- Writes negative and zero only. -/
def setNz (r : Result) (f : Flags) : Flags :=
  { f with n := r.n, z := r.z }

end Result

/-- The sign and zero flags of a value, with carry and overflow clear. -/
def nz (value : Word) : Result where
  value
  n := value.msb
  z := value == 0
  c := false
  v := false

/-- `a + b + carry`. -/
def adc (a b : Word) (carry : Bool) : Result :=
  let wide := a.toNat + b.toNat + carry.toNat
  let value := BitVec.ofNat 32 wide
  { nz value with
    c := 0x100000000 ≤ wide
    v := a.msb == b.msb && value.msb != a.msb }

def add (a b : Word) : Result :=
  adc a b false

/-- `a - b` as `a + (-b)`; subtracting zero borrows nothing. -/
def sub (a b : Word) : Result :=
  let r := add a (-b)
  { r with
    c := r.c || b == 0
    v := a.msb != b.msb && r.value.msb != a.msb }

/-- `a + ~b + carry`. -/
def sbc (a b : Word) (carry : Bool) : Result :=
  let wide := a.toNat + (~~~b).toNat + carry.toNat
  let value := BitVec.ofNat 32 wide
  { nz value with
    c := 0x100000000 ≤ wide
    v := a.msb != b.msb && value.msb != a.msb }

def mul (a b : Word) : Result :=
  nz (a * b)

/-- A shifted value and the last bit shifted out, if any was. -/
structure Shifted where
  value : Word
  carry : Option Bool
deriving DecidableEq, Repr

/-- Writes negative, zero and, if there is one, carry. -/
def Shifted.setFlags (s : Shifted) (f : Flags) : Flags :=
  { f with n := s.value.msb, z := s.value == 0, c := s.carry.getD f.c }

def lsl (v : Word) (amount : Nat) : Shifted :=
  if amount = 0 then ⟨v, none⟩
  else if amount ≤ 32 then ⟨v <<< amount, some (v.getLsbD (32 - amount))⟩
  else ⟨0, some false⟩

def lsr (v : Word) (amount : Nat) : Shifted :=
  if amount = 0 then ⟨v, none⟩
  else if amount ≤ 32 then ⟨v >>> amount, some (v.getLsbD (amount - 1))⟩
  else ⟨0, some false⟩

def asr (v : Word) (amount : Nat) : Shifted :=
  if amount = 0 then ⟨v, none⟩
  else if amount ≤ 31 then ⟨v.sshiftRight amount, some (v.getLsbD (amount - 1))⟩
  else ⟨v.sshiftRight 31, some v.msb⟩

def ror (v : Word) (amount : Nat) : Shifted :=
  if amount = 0 then ⟨v, none⟩
  else
    let rotated := v.rotateRight (amount % 32)
    ⟨rotated, some rotated.msb⟩

end Thumb.Alu
