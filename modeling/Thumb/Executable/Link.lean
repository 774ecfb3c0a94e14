import Thumb.Executable.Basic
import Thumb.Object.Draft
import Thumb.Source.Parser

namespace Thumb

namespace Object

/-- The address of a section, and where its bytes are in the content of the executable. -/
structure Placement where
  address : Word
  offset : Nat
deriving DecidableEq, Repr

/-- The content so far, and the sections in it by their indices. -/
structure Layout where
  content : List Byte
  places : Table Nat Placement := .empty
deriving DecidableEq, Repr

/-- Sections of one kind lie one after the other from an origin, each with a trailer and with zeros
up to a multiple of four bytes. -/
structure Run where
  origin : Word
  /-- Where in the content the run starts. -/
  start : Nat
  trailer : List Byte

namespace Run

def pad (run : Run) (content : List Byte) : List Byte :=
  content ++ List.replicate (padding 4 (content.length - run.start)) 0

def address (run : Run) (content : List Byte) (name : String) : Except AssemblyError Word :=
  let address := run.origin.toNat + (content.length - run.start)
  if address < 0x100000000 then .ok (BitVec.ofNat 32 address) else .error (.sectionOverflow name)

def add (run : Run) (o : Object) (l : Layout) (entry : Section × Nat) :
    Except AssemblyError Layout := do
  let (s, index) := entry
  let address ← run.address l.content s.name
  let bytes ← o.bytesOf s
  return {
    content := run.pad (l.content ++ bytes ++ run.trailer)
    places := l.places.insert index { address, offset := l.content.length } }

end Run

/-- The initial stack pointer and the first instruction. -/
def vectorTable : List Byte :=
  Width.word.toBytes AddressMap.initialSp ++ Width.word.toBytes AddressMap.codeEntry

def codeRun : Run :=
  { origin := AddressMap.flashOrigin, start := 0
    trailer := Width.halfword.toBytes AddressMap.endOfCode }

def dataRun (start : Nat) : Run :=
  { origin := AddressMap.ramOrigin, start, trailer := [] }

/-- The code sections; there is an end marker also if there is no code. -/
def placeCode (o : Object) : Except AssemblyError Layout :=
  match o.sectionsOf .code with
  | [] => .ok { content := codeRun.pad (vectorTable ++ codeRun.trailer) }
  | sections => sections.foldlM (codeRun.add o) { content := vectorTable }

def placeData (o : Object) (code : Layout) : Except AssemblyError Layout :=
  (o.sectionsOf .data).foldlM ((dataRun code.content.length).add o) code

/-- The segments of a content that begins with so many bytes of code. -/
def segments (codeSize size : Nat) : List Segment :=
  { offset := 0, size := codeSize, address := AddressMap.flashOrigin } ::
    if codeSize < size then
      [{ offset := codeSize, size := size - codeSize, address := AddressMap.ramOrigin }]
    else []

namespace Layout

def place (l : Layout) (index : Nat) : Except AssemblyError Placement :=
  match l.places.get? index with
  | some p => .ok p
  | none => .error (.missingSection index)

def symbolValue (l : Layout) : Symbol → Except AssemblyError Int
  | .constant value => .ok value
  | .address none value => .ok value
  | .address (some index) offset => do
    return (← l.place index).address.toNat + offset

/-- The address of something at an offset into a section. -/
def addressAt (l : Layout) (index offset : Nat) : Except AssemblyError Word := do
  return (← l.place index).address + BitVec.ofNat 32 offset

end Layout

def symbolValues (o : Object) (l : Layout) : Except AssemblyError (Table String Int) :=
  o.symbols.entries.foldlM (fun values (name, symbol) => do
    return values.insert name (← l.symbolValue symbol)) .empty

/-- The symbols that instructions may refer to. -/
def labelTargets (o : Object) (values : Table String Int) : Table String Word :=
  .ofList (o.symbols.entries.filterMap fun (name, symbol) =>
    match symbol with
    | .constant _ => none
    | .address .. => (values.get? name).map fun value => (name, BitVec.ofInt 32 value))

/-- The width of a datum of so many bytes. -/
def datumWidth : Nat → Width
  | 1 => .byte
  | 2 => .halfword
  | _ => .word

/-- The opcode of an instruction whose labels are known. -/
def resolveRecord (r : Record) (labels : Labels) : Except AssemblyError (List Byte) :=
  match encodeInstruction r.mnemonic r.operands (some labels) with
  | .ok opcode => .ok (Draft.halfwordBytes opcode)
  | .error (.unknownLabel label) => .error (.unresolvedSymbol r.line label)
  | .error e => .error (.instruction r.line r.mnemonic r.operands e)

/-- The bytes of a relocation at an address. -/
def resolve (values : Table String Int) (targets : Table String Word) (site : Word)
    (r : Relocation) : Except AssemblyError (List Byte) :=
  match r.kind, r.target with
  | .code, .record record => resolveRecord record { site, targets }
  | .data, .record record => .error (.statement record.line .instructionAsDatum)
  | _, .symbol name =>
    match values.get? name with
    | none => .error (.unresolvedSymbol r.line name)
    | some value => Draft.number (datumWidth r.length) value "DC" name r.line

def patch (content : List Byte) (offset : Nat) (bytes : List Byte) :
    Except AssemblyError (List Byte) :=
  if offset + bytes.length ≤ content.length then
    .ok (content.take offset ++ bytes ++ content.drop (offset + bytes.length))
  else .error .outsideContent

def relocate (l : Layout) (values : Table String Int) (targets : Table String Word)
    (content : List Byte) (r : Relocation) : Except AssemblyError (List Byte) := do
  let place ← l.place r.index
  let bytes ← resolve values targets (place.address + BitVec.ofNat 32 r.offset) r
  patch content (place.offset + r.offset) bytes

/-- The source lines by address; of records at one address the last one counts. -/
def lineTable (l : Layout) (marks : List Mark) : Except AssemblyError (Table Word Nat) :=
  marks.foldlM (fun lines m => do
    return lines.insert (← l.addressAt m.index m.offset) m.line) .empty

/-- The labels of literals are not symbols of the program. -/
def isProgramSymbol (name : String) : Bool :=
  name.toList.head? != some '$'

def link (o : Object) : Except AssemblyError Executable := do
  let code ← o.placeCode
  let l ← o.placeData code
  let values ← o.symbolValues l
  let content ← o.relocations.foldlM (relocate l values (o.labelTargets values)) l.content
  let lines ← lineTable l o.marks
  return {
    segments := segments code.content.length l.content.length
    content
    lines
    symbols := values.filterKeys isProgramSymbol }

end Object

/-- The executable of a source text. -/
def assemble (source : String) : Except AssemblyError Executable := do
  (← Object.ofProgram (← Source.parse source)).link

end Thumb
