import Thumb.Memory.Bus
import Thumb.Table

namespace Thumb

/-- A run of the content that is copied to an address before execution. -/
structure Segment where
  offset : Nat
  size : Nat
  address : Word
deriving DecidableEq, Repr

def Segment.contains (s : Segment) (addr : Word) : Bool :=
  s.address.toNat ≤ addr.toNat && addr.toNat - s.address.toNat < s.size

structure Executable where
  segments : List Segment := []
  content : List Byte := []
  /-- The source lines of the records, by address. -/
  lines : Table Word Nat := .empty
  symbols : Table String Int := .empty
deriving DecidableEq, Repr

/-- A segment reaches beyond the content. -/
structure OutsideContent where
deriving DecidableEq, Repr

inductive LoadError
  | bus (cause : BusError)
  | outsideContent
deriving DecidableEq, Repr

namespace Executable

def slice (e : Executable) (offset length : Nat) : Except OutsideContent (List Byte) :=
  if offset + length ≤ e.content.length then .ok ((e.content.drop offset).take length)
  else .error ⟨⟩

def segmentBytes (e : Executable) (s : Segment) : Except OutsideContent (List Byte) :=
  e.slice s.offset s.size

/-- The bytes at an address, if one segment has them all. -/
def bytesAt (e : Executable) (addr : Word) (length : Nat) :
    Except OutsideContent (Option (List Byte)) :=
  match e.segments.find? (·.contains addr) with
  | none => .ok none
  | some s =>
    let start := addr.toNat - s.address.toNat
    if s.size < start + length then .ok none
    else (e.slice (s.offset + start) length).map some

/-- The source line of the record at an address. -/
def lineAt (e : Executable) (addr : Word) : Option Nat :=
  e.lines.get? addr

def symbol (e : Executable) (name : String) : Option Int :=
  e.symbols.get? name

variable {μ : Type} [Bus μ]

def loadSegment (e : Executable) (s : Segment) : EStateM LoadError μ Unit :=
  fun m =>
    match e.segmentBytes s with
    | .error _ => .error .outsideContent m
    | .ok bytes =>
      match Bus.load s.address bytes m with
      | .ok () m => .ok () m
      | .error cause m => .error (.bus (.loading s.address cause)) m

def loadAll (e : Executable) : List Segment → EStateM LoadError μ Unit
  | [] => pure ()
  | s :: rest => do
    e.loadSegment s
    e.loadAll rest

/-- Loads every segment in order. Those before a refused one stay loaded. -/
def load (e : Executable) : EStateM LoadError μ Unit :=
  e.loadAll e.segments

end Executable

end Thumb
