import Thumb.Text.Numeral

namespace Thumb

abbrev Byte := BitVec 8

abbrev Halfword := BitVec 16

abbrev Word := BitVec 32

instance : Std.TransOrd Word := inferInstance

/-- The sizes of value that registers and memory exchange. -/
inductive Width
  | byte
  | halfword
  | word
deriving DecidableEq, Repr

namespace Width

def bits : Width → Nat
  | .byte => 8
  | .halfword => 16
  | .word => 32

def bytes : Width → Nat
  | .byte => 1
  | .halfword => 2
  | .word => 4

def name : Width → String
  | .byte => "Byte"
  | .halfword => "Halfword"
  | .word => "Word"

end Width

/-- The `count` low bytes of a number, the least significant one first. -/
def littleEndian : Nat → Nat → List Byte
  | 0, _ => []
  | count + 1, n => BitVec.ofNat 8 n :: littleEndian count (n / 256)

/-- The number whose bytes these are, the least significant one first. -/
def ofLittleEndian : List Byte → Nat
  | [] => 0
  | b :: bs => b.toNat + 256 * ofLittleEndian bs

namespace Width

variable (w : Width)

def toBytes (v : BitVec w.bits) : List Byte :=
  littleEndian w.bytes v.toNat

def ofBytes (bytes : List Byte) : BitVec w.bits :=
  BitVec.ofNat w.bits (ofLittleEndian bytes)

/-- All hexadecimal digits of a value, after the mark `0x`. -/
def text (v : BitVec w.bits) : String :=
  Text.hexMarked (2 * w.bytes) v.toNat

/-- A bit position beyond the width. -/
structure BitOutOfRange where
  width : Width
  position : Nat

def BitOutOfRange.message (e : BitOutOfRange) : String :=
  s!"bit {e.position} out of range for {e.width.name}"

def position (n : Nat) : Except BitOutOfRange (Fin w.bits) :=
  if h : n < w.bits then .ok ⟨n, h⟩ else .error ⟨w, n⟩

def bit (v : BitVec w.bits) (n : Nat) : Except BitOutOfRange Bool :=
  (w.position n).map fun i => v.getLsb i

def setBit (v : BitVec w.bits) (n : Nat) : Except BitOutOfRange (BitVec w.bits) :=
  (w.position n).map fun i => v ||| BitVec.twoPow w.bits i

def clearBit (v : BitVec w.bits) (n : Nat) : Except BitOutOfRange (BitVec w.bits) :=
  (w.position n).map fun i => v &&& ~~~(BitVec.twoPow w.bits i)

def toggleBit (v : BitVec w.bits) (n : Nat) : Except BitOutOfRange (BitVec w.bits) :=
  (w.position n).map fun i => v ^^^ BitVec.twoPow w.bits i

end Width

/-- The low halfword, then the high one. -/
def Word.halfwords (w : Word) : List Halfword :=
  [w.extractLsb' 0 16, w.extractLsb' 16 16]

def Word.ofHalfwords (low high : Halfword) : Word :=
  high ++ low

/-- A word as an eight-digit address. -/
def Word.address (w : Word) : String :=
  Width.word.text w

end Thumb
