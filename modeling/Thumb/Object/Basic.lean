import Thumb.Source.Error
import Thumb.Source.Program
import Thumb.Table

namespace Thumb

structure Section where
  kind : SectionKind
  name : String
  offset : Nat
  size : Nat
deriving DecidableEq, Repr

inductive Symbol
  | constant (value : Int)
  /-- An offset into the section with an index, or an address by itself. -/
  | address (base : Option Nat) (offset : Int)
deriving DecidableEq, Repr

inductive Target
  /-- The opcode of an instruction. -/
  | record (r : Record)
  /-- The value of a symbol. -/
  | symbol (name : String)
deriving DecidableEq, Repr

/-- Bytes of a section that depend on addresses. -/
structure Relocation where
  kind : SectionKind
  index : Nat
  offset : Nat
  length : Nat
  target : Target
  line : Nat
deriving DecidableEq, Repr

/-- Where in the section with an index the record of a line begins. -/
structure Mark where
  index : Nat
  offset : Nat
  line : Nat
deriving DecidableEq, Repr

structure Object where
  content : List Byte := []
  sections : List Section := []
  symbols : Table String Symbol := .empty
  relocations : List Relocation := []
  marks : List Mark := []
deriving DecidableEq, Repr

namespace Object

/-- Adds a symbol whose name is new. -/
def define (o : Object) (name : String) (symbol : Symbol) (line : Nat) :
    Except AssemblyError Object :=
  if o.symbols.contains name then .error (.duplicateSymbol line name)
  else .ok { o with symbols := o.symbols.insert name symbol }

def bytesOf (o : Object) (s : Section) : Except AssemblyError (List Byte) :=
  if s.offset + s.size ≤ o.content.length then .ok ((o.content.drop s.offset).take s.size)
  else .error .outsideContent

def sectionBytes (o : Object) (index : Nat) : Except AssemblyError (List Byte) :=
  match o.sections[index]? with
  | some s => o.bytesOf s
  | none => .error (.missingSection index)

/-- The sections of a kind with their indices. -/
def sectionsOf (o : Object) (kind : SectionKind) : List (Section × Nat) :=
  o.sections.zipIdx.filter (·.1.kind = kind)

end Object

end Thumb
