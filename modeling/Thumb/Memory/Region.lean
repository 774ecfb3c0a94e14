import Std.Data.TreeMap
import Thumb.Memory.Bus

namespace Thumb

/-- Consecutive bytes from a base address. Writes to a read-only region have no effect. -/
structure Region where
  base : Word := 0
  size : Nat
  /-- The bytes written so far, by offset. Every other byte is zero. -/
  written : Std.TreeMap Nat Byte := ∅
  readOnly : Bool := false

namespace Region

/-- The bytes that a region may have. -/
def maxSize : Nat := 0x7FFFFFFFFFFFFFFF

def zeros (base : Word) (size : Nat) (readOnly : Bool) : Region :=
  { base, size, readOnly }

def byteAt (r : Region) (offset : Nat) : Byte :=
  r.written.getD offset 0

/-- All bytes, from the base on. -/
def bytes (r : Region) : List Byte :=
  (List.range r.size).map r.byteAt

def contains (r : Region) (addr : Word) (length : Nat) : Bool :=
  r.base.toNat ≤ addr.toNat && addr.toNat - r.base.toNat + length ≤ r.size

def offset (r : Region) (addr : Word) : Nat :=
  addr.toNat - r.base.toNat

/-- Replaces the bytes from an offset on. -/
def overwrite (written : Std.TreeMap Nat Byte) (offset : Nat) : List Byte → Std.TreeMap Nat Byte
  | [] => written
  | b :: bs => overwrite (written.insert offset b) (offset + 1) bs

/-- Overwriting puts each byte at its offset and changes no other byte. -/
theorem getD_overwrite (written : Std.TreeMap Nat Byte) (offset : Nat) (bytes : List Byte)
    (i : Nat) :
    (overwrite written offset bytes).getD i 0 =
      if offset ≤ i ∧ i < offset + bytes.length then bytes.getD (i - offset) 0
      else written.getD i 0 := by
  induction bytes generalizing written offset with
  | nil =>
    have hout : ¬(offset ≤ i ∧ i < offset + ([] : List Byte).length) := by
      simp only [List.length_nil]
      omega
    rw [overwrite, if_neg hout]
  | cons b bs ih =>
    rw [overwrite, ih, Std.TreeMap.getD_insert]
    by_cases h : offset = i
    · subst h
      have hno : ¬(offset + 1 ≤ offset) := by omega
      simp [hno]
    · by_cases hi : offset + 1 ≤ i ∧ i < offset + 1 + bs.length
      · have hpos : i - offset = (i - (offset + 1)) + 1 := by omega
        have hin : offset ≤ i ∧ i < offset + (b :: bs).length := by
          simp only [List.length_cons]
          omega
        rw [if_pos hi, if_pos hin, hpos, List.getD_cons_succ]
      · have hout : ¬(offset ≤ i ∧ i < offset + (b :: bs).length) := by
          simp only [List.length_cons]
          omega
        rw [if_neg hi, if_neg hout]
        simp [h]

def ofBytes (base : Word) (bytes : List Byte) : Region :=
  { base, size := bytes.length, written := overwrite ∅ 0 bytes }

def fetch (r : Region) (addr : Word) (length : Nat) : List Byte :=
  (List.range' (r.offset addr) length).map r.byteAt

/-- Replaces bytes, protected or not. -/
def program (r : Region) (addr : Word) (bytes : List Byte) : Region :=
  let offset := r.offset addr
  { r with written := overwrite r.written offset bytes }

/-- Replaces bytes unless the region is read-only. -/
def store (r : Region) (addr : Word) (bytes : List Byte) : Region :=
  if r.readOnly then r else r.program addr bytes

def clear (r : Region) : Region :=
  { r with written := ∅ }

/-- Changes a region that holds an address range, and refuses any other range. -/
def alter (addr : Word) (length : Nat) (f : Region → Region) : EStateM BusError Region Unit :=
  fun r => if r.contains addr length then .ok () (f r) else .error (.unmapped addr) r

def read (w : Width) (addr : Word) : EStateM BusError Region (BitVec w.bits) :=
  fun r =>
    if r.contains addr w.bytes then .ok (w.ofBytes (r.fetch addr w.bytes)) r
    else .error (.unmapped addr) r

def write (w : Width) (addr : Word) (v : BitVec w.bits) : EStateM BusError Region Unit :=
  alter addr w.bytes (·.store addr (w.toBytes v))

end Region

instance : Bus Region where
  read := Region.read
  write := Region.write
  clear := Region.clear
  writeBytes addr bytes := Region.alter addr bytes.length (·.store addr bytes)
  load addr bytes := Region.alter addr bytes.length (·.program addr bytes)

/-- A region that is written and loaded one byte at a time. -/
structure Bytewise where
  region : Region

namespace Bytewise

/-- An access of the region. -/
def lift {α : Type} (x : EStateM BusError Region α) : EStateM BusError Bytewise α :=
  fun ⟨r⟩ =>
    match x r with
    | .ok a r => .ok a ⟨r⟩
    | .error e r => .error e ⟨r⟩

end Bytewise

instance : Bus Bytewise where
  read w addr := Bytewise.lift (Region.read w addr)
  write w addr v := Bytewise.lift (Region.write w addr v)
  clear b := ⟨b.region.clear⟩

end Thumb
